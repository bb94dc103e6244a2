import ApiFirewall.Engine.KafkaConsumer
import ApiFirewall.Gateway.RecordText
import ApiFirewall.Gateway.RequestCalls
import ApiFirewall.ListSplit
import ApiFirewall.Reactive.Runtime

/-!
# The deployed system

Requests and consumed messages are threads over one store. A request can arrive at any time; a
message can be consumed, any number of times, once a request has handed it to the broker. The
environment decides how every call ends: it can fail before or after its effect, the engine can
answer anything, and only the store's own answers are determined by its contents.
-/

namespace ApiFirewall

open ApiFirewall.Wire ApiFirewall.Gateway ApiFirewall.Engine ApiFirewall.KeyValue
open ApiFirewall.Reactive

/-- Configuration and library functions of both services. -/
structure Deployment (K : Type) where
  platform : Platform K
  properties : SecurityProperties K
  engine : EngineConfig K
  /-- The order in which the mapper of the producer sets the members of maps. -/
  mapOrder : MapOrder K
  /-- What the token library makes of a token at an instant; it may also fail otherwise. -/
  parseSignedClaims : ℤ → String → Option TokenVerdict

/-- What a thread works on: a request, or a message handed over by an earlier log entry. -/
inductive Label (K : Type) where
  | request (exchange : Exchange)
  | message (source : ℕ) (payload : Json K)

/-- What starts a thread. -/
inductive Stimulus where
  | request (exchange : Exchange)
  | message (source : ℕ)
  deriving DecidableEq, Repr

/-- How a command reaches the store and its answer comes back. -/
inductive Delivery where
  | answered
  | rejected
  | lost
  deriving DecidableEq, Repr

/-- The choices of the environment for one call; a call looks at the one it needs. -/
structure Env (K : Type) where
  delivery : Delivery
  succeeds : Bool
  clocks : Clocks
  stamp : Stamp
  score : Signal (ScoreResponseDTO K)

namespace Deployment

variable {K : Type} (d : Deployment K)

/-- The message that a log entry hands to the broker, as the consumer gets it. -/
def messageOf (e : Entry (Op K) Res) : Option (Json K) :=
  (sentRecord e.event).map fun record => record.value.received d.mapOrder

/-- Start a thread. -/
def spawn (log : List (Entry (Op K) Res)) : Stimulus → Option (Label K)
  | .request exchange => some (.request exchange)
  | .message source => (log[source]?.bind d.messageOf).map (.message source)

/-- The outcome of a call without a result of its own. -/
def completion (succeeds : Bool) : Signal Unit := if succeeds then .value () else .error

/-- The answer of the store to a command. -/
def answer (now : ℕ) (s : Store String) (c : Command String) : Signal c.Result :=
  ((s.exec now c).1.map Signal.value).getD .error

/-- A lookup tells whether the key is visible. -/
@[simp] theorem answer_hasKey (now : ℕ) (s : Store String) (k : String) :
    answer now s (.hasKey k) = .value (s.get now k).isSome := rfl

/-- A write needs a time to live. -/
@[simp] theorem answer_set (now : ℕ) (s : Store String) (k v : String) (ttl : ℕ) :
    answer now s (.set k v ttl) = if ttl = 0 then .error else .value true := by
  by_cases h : ttl = 0 <;> simp [answer, Store.exec, h]

/-- An increment is answered 1 if the key is absent, and one more than the counter if there is
one. -/
theorem increment_cases {now : ℕ} {s : Store String} {k : String} {n : ℤ}
    (h : answer now s (.increment k) = .value n) :
    (s.get now k = none ∧ n = 1) ∨ ∃ m e, s.get now k = some ⟨.int m, e⟩ ∧ n = m + 1 := by
  rcases hget : s.get now k with _ | ⟨_ | m, e⟩
  · exact .inl ⟨rfl, by simpa [answer, Store.exec, hget] using h.symm⟩
  · refine .inr ⟨_, e, rfl, ?_⟩
    simp only [answer, Store.exec, hget] at h
    split at h
    · simpa using h.symm
    · simp at h
  · simp [answer, Store.exec, hget] at h

/-- An answered increment is answered at least 1. -/
theorem one_le_of_increment {now : ℕ} {s : Store String} (hs : s.Positive) {k : String} {n : ℤ}
    (h : answer now s (.increment k) = .value n) : 1 ≤ n := by
  rcases increment_cases h with ⟨-, rfl⟩ | ⟨m, e, hget, rfl⟩
  · exact Int.le_refl 1
  · have := hs k m e (Store.eq_some_of_get hget)
    omega

/-- A command on the store. -/
def command (delivery : Delivery) (now : ℕ) (s : Store String) (c : Command String) :
    Signal c.Result × Store String :=
  match delivery with
  | .answered => (answer now s c, (s.exec now c).2)
  | .rejected => (.error, s)
  | .lost => (.error, (s.exec now c).2)

/-- A command that is answered by a value has been carried out. -/
theorem command_eq_value {delivery : Delivery} {now : ℕ} {s : Store String} {c : Command String}
    {r : c.Result} (h : (command delivery now s c).1 = .value r) :
    delivery = .answered ∧ answer now s c = .value r := by
  cases delivery with
  | answered => exact ⟨rfl, h⟩
  | rejected => simp [command] at h
  | lost => simp [command] at h

/-- A command is carried out or has no effect. -/
theorem command_store (delivery : Delivery) (now : ℕ) (s : Store String) (c : Command String) :
    (command delivery now s c).2 = s ∨ (command delivery now s c).2 = (s.exec now c).2 := by
  cases delivery with
  | answered => exact .inr rfl
  | rejected => exact .inl rfl
  | lost => exact .inr rfl

/-- A command is not answered by a bare completion. -/
theorem command_ne_empty (delivery : Delivery) (now : ℕ) (s : Store String) (c : Command String) :
    (command delivery now s c).1 ≠ .empty := by
  cases delivery with
  | answered =>
    simp only [command, answer]
    cases (s.exec now c).1 <;> simp
  | rejected => simp [command]
  | lost => simp [command]

/-- No command makes a counter that has not been incremented, however it is delivered. -/
theorem positive_command {s : Store String} (h : s.Positive) (delivery : Delivery) (now : ℕ)
    (c : Command String) : (command delivery now s c).2.Positive := by
  rcases command_store delivery now s c with heq | heq
  · rw [heq]
    exact h
  · rw [heq]
    exact h.exec now c

/-- The reply to a call, and the store after it. -/
def handle (env : Env K) (now : ℕ) : (op : Op K) → Store String → Signal (Res op) × Store String
  | .parseSignedClaims token, s =>
    (((d.parseSignedClaims env.clocks.now token).map Signal.value).getD .error, s)
  | .redis c, s => command env.delivery now s c
  | .readBody body, s => (if env.succeeds then .value body else .error, s)
  | .readClocks, s => (.value env.clocks, s)
  | .stamp, s => (.value env.stamp, s)
  | .postScore _, s => (env.score, s)
  | .send _, s => (completion env.succeeds, s)
  | .chain _, s => (completion env.succeeds, s)
  | .setStatusCode _, s => (completion env.succeeds, s)
  | .addHeader _ _, s => (completion env.succeeds, s)
  | .writeWith _, s => (completion env.succeeds, s)
  | .sendAudit _ _, s => (completion env.succeeds, s)

/-- Only commands change the store. -/
theorem handle_store (env : Env K) (now : ℕ) (s : Store String) {op : Op K}
    (h : ∀ c, op ≠ .redis c) : (d.handle env now op s).2 = s := by
  cases op <;> first | rfl | exact absurd rfl (h _)

/-- An answered command is carried out. -/
theorem handle_redis {env : Env K} (h : env.delivery = .answered) (now : ℕ) (c : Command String)
    (s : Store String) : d.handle env now (.redis c) s = (answer now s c, (s.exec now c).2) := by
  simp [handle, command, h]

/-- The worlds of the deployment. -/
abbrev State (K : Type) := World (Op K) Res (Store String) (Label K)

/-- Nothing has happened, and the store is empty. -/
def start : State K := World.init Store.empty

/-- Any action. -/
def Anything : Action Stimulus (Env K) → Prop := fun _ => True

/-- Every command reaches the store and is answered. -/
def StoreAnswers : Action Stimulus (Env K) → Prop
  | .call _ _ env => env.delivery = .answered
  | _ => True

instance : DecidablePred (StoreAnswers (K := K)) := fun a =>
  match a with
  | .call _ _ env => inferInstanceAs (Decidable (env.delivery = .answered))
  | .tick _ | .spawn _ | .join _ _ | .cancel _ => isTrue trivial

/-- The store after the commands of a log, each of them carried out when it was sent. -/
def storeOf (log : List (Entry (Op K) Res)) : Store String :=
  log.foldl (fun s e => match e.event.op with
    | .redis c => (s.exec e.time c).2
    | _ => s) Store.empty

/-- One more command is carried out. -/
theorem storeOf_concat_redis (log : List (Entry (Op K) Res)) {e : Entry (Op K) Res}
    {c : Command String} (h : e.event.op = .redis c) :
    storeOf (log ++ [e]) = ((storeOf log).exec e.time c).2 := by
  simp [storeOf, h]

/-- Other calls leave the store as it is. -/
theorem storeOf_concat_other (log : List (Entry (Op K) Res)) {e : Entry (Op K) Res}
    (h : ∀ c, e.event.op ≠ .redis c) : storeOf (log ++ [e]) = storeOf log := by
  unfold storeOf
  rw [List.foldl_append, List.foldl_cons, List.foldl_nil]
  split
  · rename_i c hop
    exact absurd hop (h c)
  · rfl

/-- Stored counters have been incremented. -/
theorem positive_storeOf (log : List (Entry (Op K) Res)) : (storeOf log).Positive := by
  induction log using List.reverseRecOn with
  | nil => exact Store.Positive.empty
  | append_singleton log e ih =>
    by_cases h : ∃ c, e.event.op = .redis c
    · obtain ⟨c, hop⟩ := h
      rw [storeOf_concat_redis log hop]
      exact ih.exec e.time c
    · rw [storeOf_concat_other log fun c hop => h ⟨c, hop⟩]
      exact ih

/-- Every command of a log was answered by the store of the log before it. -/
def Replayed (log : List (Entry (Op K) Res)) : Prop :=
  ∀ (pre : List (Entry (Op K) Res)) (e : Entry (Op K) Res) (post : List (Entry (Op K) Res)),
    log = pre ++ e :: post → ∀ path c r, e.event = ⟨path, .redis c, r⟩ →
      r = answer e.time (storeOf pre) c

/-- The request of a thread. -/
def requestAt (labels : List (Label K)) (i : ℕ) : Option Exchange :=
  match labels[i]? with
  | some (.request exchange) => some exchange
  | _ => none

/-- A thread has the request that it was started with. -/
theorem requestAt_eq_some {labels : List (Label K)} {i : ℕ} {exchange : Exchange} :
    requestAt labels i = some exchange ↔ labels[i]? = some (.request exchange) := by
  unfold requestAt
  split
  · rename_i exchange' hlabel
    simp [hlabel]
  · rename_i hlabel
    exact ⟨by simp, fun h => absurd h (hlabel exchange)⟩

section Programs

variable [Field K] [LinearOrder K] [FloorRing K]

/-- The program of a thread. -/
def body : Label K → Program K Unit
  | .request exchange => ZeroTrustFilter.filter d.platform d.properties exchange
  | .message _ payload => KafkaConsumer.processMessage d.engine payload

/-- The system of both services. -/
def system : System (Op K) Res (Store String) (Env K) (Label K) Stimulus where
  body := d.body
  spawn := d.spawn
  handle := d.handle

/-- The calls of a thread, with the data they carry. -/
def LabelCall : Label K → Op K → Prop
  | .request exchange => ZeroTrustFilter.RequestCall d.properties exchange
  | .message _ payload => KafkaConsumer.MessageCall d.engine payload

/-- A thread performs the calls of its label. -/
theorem body_emits (l : Label K) : (d.body l).Emits (d.LabelCall l) := by
  cases l with
  | request exchange => exact ZeroTrustFilter.filter_emits _ _ exchange
  | message source payload => exact KafkaConsumer.processMessage_emits _ payload

/-- What a request has done, in any run. -/
theorem progress {d : Deployment K} {P : Action Stimulus (Env K) → Prop} {w : State K}
    (hrun : d.system.Run P start w) {i : ℕ} {exchange : Exchange}
    (hi : w.labels[i]? = some (.request exchange)) :
    ∃ m', ZeroTrustFilter.Progress d.platform d.properties exchange m' (w.events i) := by
  obtain ⟨m, hm⟩ := World.exists_thread hi
  obtain ⟨m', htr, -⟩ := hrun.coherent.trace i _ m hm
  exact ⟨m', ZeroTrustFilter.progress_of_trace htr⟩

/-- A request that has ended otherwise than with an error has run to its end. -/
theorem trace_of_ended {d : Deployment K} {P : Action Stimulus (Env K) → Prop} {w : State K}
    (hrun : d.system.Run P start w) {i : ℕ} {exchange : Exchange} {s : Signal Unit}
    (hi : w.threads[i]? = some (.request exchange, .done s)) (hs : s ≠ .error) :
    Trace (ZeroTrustFilter.filter d.platform d.properties exchange) (w.events i) (.done s) := by
  obtain ⟨m', htr, rfl | hm⟩ := hrun.coherent.trace i _ _ hi
  · exact htr
  · exact absurd (Mono.done.inj hm) hs

/-- In every run in which the store answers, it is the store of the log, and so were its answers. -/
theorem replayed_of_run {d : Deployment K} {w : State K}
    (hrun : d.system.Run StoreAnswers start w) : w.shared = storeOf w.log ∧ Replayed w.log := by
  refine hrun.log_rule (I := fun _ s (_ : List (Label K)) log => s = storeOf log ∧ Replayed log)
    ⟨rfl, by simp [Replayed]⟩ (fun _ _ _ _ _ ih => ih) (fun _ _ _ _ _ _ _ _ ih => ih) ?_
  rintro now _ ls log i path env op l m' hanswered ⟨rfl, hreplayed⟩ _ _ _
  unfold Replayed
  rw [List.forall_split_concat]
  by_cases hredis : ∃ c, op = .redis c
  · obtain ⟨c, rfl⟩ := hredis
    rw [show d.system.handle env now (.redis c) _ = _ from d.handle_redis hanswered now c _]
    refine ⟨?_, hreplayed, fun path' c' r heq => ?_⟩
    · rw [storeOf_concat_redis log rfl]
    simp only [Event.mk.injEq, Op.redis.injEq] at heq
    obtain ⟨-, rfl, hr⟩ := heq
    exact (eq_of_heq hr).symm
  · have hother : ∀ c, op ≠ .redis c := fun c hop => hredis ⟨c, hop⟩
    rw [show (d.system.handle env now op _).2 = _ from d.handle_store env now _ hother]
    refine ⟨(storeOf_concat_other log hother).symm, hreplayed, fun path' c' r heq => ?_⟩
    exact absurd (congrArg Event.op heq) (hother c')

/-- A logged call is a call of its thread. -/
theorem labelCall_of_log {d : Deployment K} {P : Action Stimulus (Env K) → Prop} {w : State K}
    (hrun : d.system.Run P start w) {e : Entry (Op K) Res} (he : e ∈ w.log) :
    ∃ l, w.labels[e.thread]? = some l ∧ d.LabelCall l e.event.op := by
  have hlt := hrun.coherent.thread_lt e he
  obtain ⟨m', htr, -⟩ := hrun.coherent.trace e.thread _ _ (List.getElem?_eq_getElem hlt)
  refine ⟨(w.threads[e.thread]).1, by simp [World.labels, hlt], ?_⟩
  exact (htr.emits (d.body_emits _)).1 e.event (mem_eventsOf.mpr ⟨e, he, rfl, rfl⟩)

/-- The envelope of a request names its client. -/
theorem clientIp_of_sent {d : Deployment K} {P : Action Stimulus (Env K) → Prop} {w : State K}
    (hrun : d.system.Run P start w)
    {i : ℕ} {exchange : Exchange} (hi : w.labels[i]? = some (.request exchange))
    {e : Entry (Op K) Res} (he : e ∈ w.log) (hthread : e.thread = i) {record : ProducerRecord K}
    (hsent : sentRecord e.event = some record) :
    ZeroTrustFilter.resolveClientIp exchange = some record.value.clientIp := by
  obtain ⟨l, hl, hcall⟩ := labelCall_of_log hrun he
  rw [hthread, hi, Option.some.injEq] at hl
  subst hl
  rw [op_of_sentRecord hsent] at hcall
  change ZeroTrustFilter.RequestCall d.properties exchange (.send record) at hcall
  cases hcall with
  | send hresolved => exact hresolved

/-- A message is the value of a record that an entry of the log has handed to the broker. -/
theorem source_of_message {d : Deployment K} {P : Action Stimulus (Env K) → Prop} {w : State K}
    (hrun : d.system.Run P start w) {k source : ℕ} {payload : Json K}
    (hk : w.labels[k]? = some (.message source payload)) :
    ∃ e record, w.log[source]? = some e ∧ sentRecord e.event = some record ∧
      payload = record.value.received d.mapOrder := by
  refine hrun.log_rule (I := fun _ _ (ls : List (Label K)) log =>
    ∀ (k source : ℕ) (payload : Json K), ls[k]? = some (.message source payload) →
      ∃ e record, log[source]? = some e ∧ sentRecord e.event = some record ∧
        payload = record.value.received d.mapOrder)
    (by simp) (fun _ _ _ _ _ ih => ih) ?_ ?_ k source payload hk
  · intro now s ls log stimulus l _ hspawn ih k source payload hk
    rw [List.getElem?_append] at hk
    split at hk
    · exact ih k source payload hk
    · obtain rfl := List.mem_singleton.mp (List.mem_of_getElem? hk)
      cases stimulus with
      | request exchange => simp [system, spawn] at hspawn
      | message source' =>
        obtain ⟨payload', hpayload, heq⟩ := Option.map_eq_some_iff.mp hspawn
        obtain ⟨rfl, rfl⟩ := Label.message.inj heq
        obtain ⟨e, he, hmessage⟩ := Option.bind_eq_some_iff.mp hpayload
        obtain ⟨record, hrecord, rfl⟩ := Option.map_eq_some_iff.mp hmessage
        exact ⟨e, record, he, hrecord, rfl⟩
  · intro now s ls log i path env op l m' _ ih _ _ _ k source payload hk
    obtain ⟨e, record, he, hrecord⟩ := ih k source payload hk
    exact ⟨e, record, List.getElem?_append_left (List.getElem?_eq_some_iff.mp he).1 ▸ he, hrecord⟩

end Programs

/-- The deployed configuration with one good token and constant models. -/
def sample : Deployment ℚ where
  platform := { readMap := fun _ => none, showDouble := fun _ => "0.0" }
  properties := .deployed
  engine :=
    { texts := { float := fun _ => none, int := fun _ => none }
      log2 := fun _ => 0
      model :=
        { decisionFunction := fun _ => some (-1 / 2)
          predictProba := fun _ => some 1
          isoScoreMin := -1 / 2
          isoScoreMax := 1 / 2 }
      showValue := fun _ => "None"
      blocklistTtlSeconds := 900 }
  mapOrder := { apply := id, reordered := RequestSignalDTO.Reordered.refl }
  parseSignedClaims := fun _ token =>
    some (if token = "good" then .claims { subject := some "alice", issuedAt := some 0 }
      else .rejected)

/-- A request without headers and body. -/
def sampleRequest (path address : String) : Exchange :=
  { path, method := "GET", headers := [], remoteAddress := some address, body := [] }

/-- Every call succeeds, at noon, and the engine allows the request. -/
def sampleEnv : Env ℚ where
  delivery := .answered
  succeeds := true
  clocks := { issuedAtDefault := 0, now := 0, hour := 12 }
  stamp := { requestId := "r-1", timestamp := "1970-01-01T00:00:00Z" }
  score := .value
    { isolationScore := .finite 0, xgboostScore := .finite 0, finalScore := .finite 0,
      decision := some "ALLOW", reason := some "Risk within normal operating range" }

/-- The answer by which the engine blocks a request. -/
def blockingScore : ScoreResponseDTO ℚ where
  isolationScore := .finite 1
  xgboostScore := .finite 1
  finalScore := .finite 1
  decision := some "BLOCK"
  reason := some "High combined anomaly + attack-pattern probability"

/-- Every call succeeds, and the engine blocks the request. -/
def blockingEnv : Env ℚ := { sampleEnv with score := .value blockingScore }

/-- The next `n` calls of a thread outside its counters. -/
def callTop (n i : ℕ) (env : Env ℚ) : List (Action Stimulus (Env ℚ)) :=
  List.replicate n (.call i [] env)

/-- The calls of the counters of a thread, one part after the other. The first window counter sets
its window if it is the first to count the request's client and path. -/
def callCounters (isFirst : Bool) (i : ℕ) (env : Env ℚ) : List (Action Stimulus (Env ℚ)) :=
  .call i [.first] env :: (if isFirst then [.call i [.first] env] else []) ++
    [.call i [.second] env, .call i [.third] env, .call i [.third] env, .join i []]

end Deployment

end ApiFirewall
