import ApiFirewall.Guarantees.Enforcement
import ApiFirewall.KeyValue.TypedStore

/-!
# Types of the shared store

The names of clients, paths and identities are parts of keys, and a client chooses them. Whatever it
chooses, blocklist entries are texts and all other keys are counters, so no request can make the store
refuse a command of another one.
-/

namespace ApiFirewall.Guarantees

open ApiFirewall.Gateway ApiFirewall.Gateway.ZeroTrustFilter ApiFirewall.Engine
open ApiFirewall.KeyValue ApiFirewall.Reactive Deployment

variable {K : Type}

/-- The key is no blocklist entry. -/
def CounterKey (key : String) : Prop := ∀ client, key ≠ RedisStateService.blocklistKey client

/-- The key of a blocklist entry is no other key. -/
theorem not_counterKey_blocklistKey (client : String) :
    ¬ CounterKey (RedisStateService.blocklistKey client) := fun h => h client rfl

/-- The store of a log keeps its types if the commands of the log do. -/
theorem typed_storeOf {log : List (Entry (Op K) Res)}
    (h : ∀ e ∈ log, ∀ c, e.event.op = .redis c → c.Respects CounterKey) :
    (storeOf log).Typed CounterKey log.length := by
  induction log using List.reverseRecOn with
  | nil => exact .empty _ _
  | append_singleton log e ih =>
    obtain ⟨hlog, he⟩ := List.forall_mem_append.mp h
    have htyped := ih hlog
    rw [List.length_append, List.length_singleton]
    push_cast
    by_cases hredis : ∃ c, e.event.op = .redis c
    · obtain ⟨c, hop⟩ := hredis
      rw [storeOf_concat_redis log hop]
      exact htyped.exec (by omega) (he e (List.mem_singleton_self e) c hop) e.time
    · rw [storeOf_concat_other log fun c hop => hredis ⟨c, hop⟩]
      exact htyped.mono (by omega)

variable [Field K] [LinearOrder K] [FloorRing K] {d : Deployment K}

/-- The commands of requests and messages keep to the types of their keys. -/
theorem respects_of_labelCall {l : Label K} {c : Command String} (h : d.LabelCall l (.redis c)) :
    c.Respects CounterKey := by
  cases l with
  | request exchange =>
    change RequestCall d.properties exchange (.redis c) at h
    cases h with
    | lookup => trivial
    | count => exact fun _ => RedisStateService.countKey_ne_blocklistKey
    | window => trivial
    | streak => exact fun _ => RedisStateService.failstreakKey_ne_blocklistKey
    | extend => trivial
    | block => exact not_counterKey_blocklistKey _
  | message source payload =>
    change KafkaConsumer.MessageCall d.engine payload (.redis c) at h
    cases h with
    | block => exact not_counterKey_blocklistKey _

/-- The writes of requests and messages have the configured times to live. -/
theorem ttl_of_labelCall (hgateway : 0 < d.properties.blocklistTtlSeconds)
    (hengine : 0 < d.engine.blocklistTtlSeconds) {l : Label K} {key value : String} {ttl : ℕ}
    (h : d.LabelCall l (.redis (.set key value ttl))) : 0 < ttl := by
  have hseconds : ∀ {n : ℤ}, 0 < n → 0 < seconds n := by
    intro n hn
    unfold seconds
    omega
  cases l with
  | request exchange =>
    change RequestCall d.properties exchange (.redis (.set key value ttl)) at h
    cases h with
    | block => exact hseconds hgateway
  | message source payload =>
    change KafkaConsumer.MessageCall d.engine payload (.redis (.set key value ttl)) at h
    cases h with
    | block => exact hseconds hengine

/-- In every run the store keeps its types, and no counter is larger than the number of calls. -/
theorem typed_of_run {P : Action Stimulus (Env K) → Prop} {w : State K}
    (hrun : d.system.Run P start w) : w.shared.Typed CounterKey w.log.length := by
  refine hrun.log_rule (I := fun _ s (_ : List (Label K)) log => s.Typed CounterKey log.length)
    (.empty _ _) (fun _ _ _ _ _ ih => ih) (fun _ _ _ _ _ _ _ _ ih => ih) ?_
  intro now s ls log i path env op l m' _ ih _ _ htr
  rw [List.length_append, List.length_singleton]
  push_cast
  by_cases hredis : ∃ c, op = .redis c
  · obtain ⟨c, rfl⟩ := hredis
    have hcall := htr.emits_concat (d.body_emits l)
    rcases command_store env.delivery now s c with hsame | hexec
    · change Store.Typed CounterKey _ (command env.delivery now s c).2
      rw [hsame]
      exact ih.mono (by omega)
    · change Store.Typed CounterKey _ (command env.delivery now s c).2
      rw [hexec]
      exact ih.exec (by omega) (respects_of_labelCall hcall) now
  · have hother : ∀ c, op ≠ .redis c := fun c hop => hredis ⟨c, hop⟩
    change Store.Typed CounterKey _ (d.handle env now op s).2
    rw [d.handle_store env now s hother]
    exact ih.mono (by omega)

/-- In every run, whatever clients, paths and identities there are, a stored key holds a text exactly
if it is a blocklist entry, and otherwise a counter. So a store that is reached refuses no command,
with positive times to live and fewer calls than the largest counter. -/
theorem store_never_refuses {P : Action Stimulus (Env K) → Prop} {w : State K}
    (hrun : d.system.Run P start w) :
    (∀ key c, w.shared key = some c →
      ((∃ t, c.value = .text t) ↔ ∃ client, key = RedisStateService.blocklistKey client)) ∧
    ((∀ a, P a → StoreAnswers a) → 0 < d.properties.blocklistTtlSeconds →
      0 < d.engine.blocklistTtlSeconds → (w.log.length : ℤ) ≤ Store.maxCounter →
      ∀ i path c reply, ⟨path, .redis c, reply⟩ ∈ w.events i → reply ≠ .error) := by
  constructor
  · intro key c hc
    rw [(typed_of_run hrun).text_iff hc]
    simp only [CounterKey, not_forall, not_not]
  · intro hP hgateway hengine hsize i path c reply hmem
    have hanswers := hrun.mono hP
    obtain ⟨e, he, -, hevent⟩ := mem_eventsOf.mp hmem
    obtain ⟨pre, post, hsplit⟩ := List.append_of_mem he
    obtain rfl := (replayed_of_run hanswers).2 pre e post hsplit _ _ _ hevent
    have hcalls : ∀ e ∈ w.log, ∀ c, e.event.op = .redis c →
        ∃ l, d.LabelCall l (.redis c) := by
      intro e he c hop
      obtain ⟨l, -, hcall⟩ := labelCall_of_log hanswers he
      exact ⟨l, hop ▸ hcall⟩
    have htyped : (storeOf pre).Typed CounterKey pre.length := by
      apply typed_storeOf
      intro e he c hop
      obtain ⟨l, hcall⟩ := hcalls e (by rw [hsplit]; simp [he]) c hop
      exact respects_of_labelCall hcall
    have hlength : (pre.length : ℤ) < Store.maxCounter := by
      rw [hsplit, List.length_append, List.length_cons] at hsize
      push_cast at hsize
      omega
    obtain ⟨l, hcall⟩ := hcalls e he c (congrArg Event.op hevent)
    obtain ⟨r, hr⟩ := htyped.answers hlength (respects_of_labelCall hcall)
      (fun key value ttl hc => ttl_of_labelCall hgateway hengine (hc ▸ hcall)) e.time
    rw [answer, hr]
    simp

/-- The store has counted the registration. -/
theorem registration_answered : ∃ reply,
    ⟨[.first], .redis (.increment (RedisStateService.countKey "10.0.0.1" "/api/auth/register")), reply⟩ ∈
      registration.events 0 ∧ reply ≠ .error := by
  have hrun : sample.system.Run StoreAnswers start registration := System.Run.after rfl (by decide)
  have hmem : ⟨[.first], .redis (.increment (RedisStateService.countKey "10.0.0.1" "/api/auth/register")),
      .value 1⟩ ∈ registration.events 0 :=
    List.mem_of_getElem? (show (registration.events 0)[1]? = some ⟨_, .redis _, .value 1⟩ from rfl)
  exact ⟨_, hmem, (store_never_refuses hrun).2 (fun _ => id) (by decide)
    (by decide) (by decide +kernel) 0 _ _ _ hmem⟩

end ApiFirewall.Guarantees
