import ApiFirewall.Engine.MessageTrace
import ApiFirewall.Guarantees.Blocklist

/-!
# Two writers of the blocklist

The gateway blocks a client when the engine's answer says so, and the consumer blocks the client of
an envelope when it scores the envelope so itself. Both leave the client blocked in the same way,
apart from the client that stands for an unknown one, which the consumer never blocks.
-/

namespace ApiFirewall.Guarantees

open ApiFirewall.Wire ApiFirewall.Gateway ApiFirewall.Gateway.ZeroTrustFilter
open ApiFirewall.Gateway.RedisStateService ApiFirewall.KeyValue ApiFirewall.Reactive
open ApiFirewall.Engine ApiFirewall.Engine.KafkaConsumer Deployment

variable {K : Type}

/-- A request that has finished after a score that blocks it has written its client to the
blocklist. -/
theorem block_mem_of_score [Field K] {platform : Platform K} {properties : SecurityProperties K}
    {exchange : Exchange} {m' : Program K Unit} {tr : Events K}
    (h : Progress platform properties exchange m' tr) (hm : m'.Completes) {path : List Branch}
    {signal : RequestSignalDTO K} {reply : Signal (ScoreResponseDTO K)}
    {result : ScoreResponseDTO K} {reason : String}
    (hmem : ⟨path, .postScore signal, reply⟩ ∈ tr) (hreply : scored reply = some result)
    (hblock : result.decision = some "BLOCK") (hreason : result.reason = some reason) :
    ∃ clientIp path r, resolveClientIp exchange = some clientIp ∧
      ⟨path, .redis (.set (blocklistKey clientIp) reason
        (seconds properties.blocklistTtlSeconds)), r⟩ ∈ tr := by
  obtain ⟨clientIp, _, buffers, rate10s, _, _, signal', rest, hresolved, -, hroute, hrest, hsub⟩ :=
    routed_of_scoring h hmem trivial
  cases hroute with
  | waiting => simp at hrest
  | direct _ hchain =>
    have hop := hchain.1.subset (List.mem_map_of_mem hrest)
    simp at hop
  | undecided _ hne => exact absurd hm hne
  | @enforced reply' result' after _ hscored henforce =>
    have hcalls := henforce.2 hm
    have hsame : result' = result := by
      rcases List.mem_cons.mp hrest with heq | hin
      · simp only [Event.top, Event.mk.injEq, Op.postScore.injEq] at heq
        obtain ⟨-, rfl, hr⟩ := heq
        obtain rfl := eq_of_heq hr
        exact Option.some.inj (hscored.symm.trans hreply)
      · have hop : Op.postScore signal ∈ after.map Event.op := List.mem_map_of_mem hin
        rw [hcalls, enforcement] at hop
        split at hop
        · cases hr : result'.reason <;> simp [hr] at hop
        · simp at hop
    subst hsame
    have hset : Op.redis (.set (blocklistKey clientIp) reason
        (seconds properties.blocklistTtlSeconds)) ∈ after.map Event.op := by
      simp [hcalls, enforcement, hblock, hreason]
    obtain ⟨⟨path', op, r⟩, hin, rfl⟩ := List.mem_map.mp hset
    exact ⟨clientIp, path', r, hresolved, hsub _ (List.mem_cons_of_mem _ hin)⟩

section Runs

variable [Field K] [LinearOrder K] [FloorRing K] {d : Deployment K} {w : State K}

/-- A write with a time to live is completed in every run in which the store answers. -/
theorem blockWrite_of_set (hrun : d.system.Run StoreAnswers start w) {e : Entry (Op K) Res}
    (he : e ∈ w.log) {path : List Branch} {c text : String} {ttl : ℕ} {r : Signal Bool}
    (hevent : e.event = ⟨path, .redis (.set (blocklistKey c) text ttl), r⟩) (httl : 0 < ttl) :
    BlockWrite c e := by
  obtain ⟨pre, post, hsplit⟩ := List.append_of_mem he
  obtain rfl : r = .value true := by
    have hanswer := (replayed_of_run hrun).2 pre e post hsplit _ _ _ hevent
    rwa [answer_set, if_neg (Nat.ne_of_gt httl)] at hanswer
  exact ⟨path, text, ttl, hevent⟩

variable (d w) in
/-- The thread has put the client on the blocklist: the client stays there for the block time, and
every later request that looks it up in that time is rejected. -/
def BlockedBy (k : ℕ) (c : String) : Prop :=
  ∃ (j : ℕ) (e : Entry (Op K) Res), w.log[j]? = some e ∧ e.thread = k ∧ BlockWrite c e ∧
    (w.now < e.time + blockTime d → (w.shared.get w.now (blocklistKey c)).isSome = true) ∧
    ∀ (j' : ℕ) (e' : Entry (Op K) Res) reply, j < j' → w.log[j']? = some e' → LooksUp c e' reply →
      e'.time < e.time + blockTime d → ∀ exchange m,
        w.threads[e'.thread]? = some (.request exchange, m) →
          RejectedAsBlocked c (w.events e'.thread) m

/-- A write with a time to live puts the client on the blocklist. -/
theorem blockedBy_of_set (hrun : d.system.Run StoreAnswers start w) {k : ℕ} {path : List Branch}
    {c text : String} {ttl : ℕ} {r : Signal Bool}
    (hmem : ⟨path, .redis (.set (blocklistKey c) text ttl), r⟩ ∈ w.events k) (httl : 0 < ttl) :
    BlockedBy d w k c := by
  obtain ⟨e, he, hk, hevent⟩ := mem_eventsOf.mp hmem
  have hwrite := blockWrite_of_set hrun he hevent httl
  obtain ⟨j, hj⟩ := List.mem_iff_getElem?.mp he
  refine ⟨j, e, hj, hk, hwrite, fun hnow => ?_, fun j' e' reply hlt hj' hlookup htime _ _ hi => ?_⟩
  · exact ((blocks_live hrun).1 c e he hwrite).get_isSome hnow
  · exact rejected_while_blocked hrun hlt hj hj' hwrite hlookup htime hi

/-- A thread has finished its work on the record that another one has sent. -/
def Consumed (w : State K) (k i : ℕ) (record : ProducerRecord K) : Prop :=
  ∃ source e payload m, w.log[source]? = some e ∧ e.thread = i ∧
    sentRecord e.event = some record ∧ w.threads[k]? = some (.message source payload, m) ∧
    m.Completes

omit [Field K] [LinearOrder K] [FloorRing K] in
/-- A consumed record was sent by its request. -/
theorem sent_of_consumed {w : State K} {k i : ℕ} {record : ProducerRecord K}
    (h : Consumed w k i record) :
    ∃ e ∈ w.log, e.thread = i ∧ sentRecord e.event = some record := by
  obtain ⟨source, e, payload, m, hsource, hthread, hsent, -⟩ := h
  exact ⟨e, List.mem_of_getElem? hsource, hthread, hsent⟩

/-- Finished work on an envelope whose signal scores as a block has put its client on the blocklist
if and only if the client is known. -/
theorem blockedBy_of_consumed (hrun : d.system.Run StoreAnswers start w)
    (hengine : 0 < d.engine.blocklistTtlSeconds) {k i : ℕ} {record : ProducerRecord K}
    (h : Consumed w k i record) {result : ScoreResult K}
    (hscore : scoreSignal d.engine (record.value.signal.received d.mapOrder) = some result)
    (hblock : result.decision = .block) :
    BlockedBy d w k record.value.clientIp ↔ record.value.clientIp ≠ unknownClient := by
  obtain ⟨source, e, payload, m, hsource, -, hsent, hthread, hm⟩ := h
  obtain rfl : payload = record.value.received d.mapOrder := by
    obtain ⟨e', record', hsource', hsent', hpayload⟩ :=
      source_of_message hrun (show w.labels[k]? = some (.message source payload) by
        simp [World.labels, hthread])
    obtain rfl := Option.some.inj (hsource'.symm.trans hsource)
    obtain rfl := Option.some.inj (hsent'.symm.trans hsent)
    exact hpayload
  obtain ⟨m', htr, hm'⟩ := hrun.coherent.trace k _ m hthread
  constructor
  · rintro ⟨j, e', hj, hthread', ⟨path, text, ttl, hevent⟩, -⟩
    have hmem : e'.event ∈ w.events k :=
      mem_eventsOf.mpr ⟨e', List.mem_of_getElem? hj, hthread', rfl⟩
    have hcall := (htr.emits (d.body_emits (.message source (record.value.received d.mapOrder)))).1 _ hmem
    rw [hevent] at hcall
    obtain ⟨-, -, -, hknown, -⟩ := command_of_envelope hcall
    exact hknown
  · intro hknown
    rcases hm' with rfl | rfl
    · obtain ⟨r, hmem⟩ := block_mem_of_envelope htr hm hscore hblock hknown
      refine blockedBy_of_set hrun hmem ?_
      unfold seconds
      omega
    · obtain ⟨a, ha⟩ := hm
      simp [Mono.outcome] at ha

/-- Once the gateway has blocked a request on the engine's answer, its client is blocked. Once the
consumer has worked on the envelope of a request and scored it as a block, its client is blocked
in the same way if and only if it is known. -/
theorem both_writers_block (hrun : d.system.Run StoreAnswers start w)
    (hgateway : 0 < d.properties.blocklistTtlSeconds)
    (hengine : 0 < d.engine.blocklistTtlSeconds) {i : ℕ} {exchange : Exchange}
    {m : Program K Unit} (hi : w.threads[i]? = some (.request exchange, m)) {c : String}
    (hc : resolveClientIp exchange = some c) :
    (∀ path signal reply result reason, m.Completes →
      ⟨path, .postScore signal, reply⟩ ∈ w.events i → scored reply = some result →
      result.decision = some "BLOCK" → result.reason = some reason → BlockedBy d w i c) ∧
    ∀ k record result, Consumed w k i record →
      scoreSignal d.engine (record.value.signal.received d.mapOrder) = some result → result.decision = .block →
      (BlockedBy d w k c ↔ c ≠ unknownClient) := by
  constructor
  · intro path signal reply result reason hm hmem hreply hblock hreason
    obtain ⟨m', htr, hm'⟩ := hrun.coherent.trace i _ m hi
    rcases hm' with rfl | rfl
    · obtain ⟨c', path', r, hc', hset⟩ :=
        block_mem_of_score (progress_of_trace htr) hm hmem hreply hblock hreason
      obtain rfl : c' = c := Option.some.inj (hc'.symm.trans hc)
      refine blockedBy_of_set hrun hset ?_
      unfold seconds
      omega
    · obtain ⟨a, ha⟩ := hm
      simp [Mono.outcome] at ha
  · intro k record result hconsumed hscore hblock
    obtain ⟨e, he, hthread, hsent⟩ := sent_of_consumed hconsumed
    have hlabel : w.labels[i]? = some (.request exchange) := by simp [World.labels, hi]
    have hresolved := clientIp_of_sent hrun hlabel he hthread hsent
    obtain rfl : record.value.clientIp = c := Option.some.inj (hresolved.symm.trans hc)
    exact blockedBy_of_consumed hrun hengine hconsumed hscore hblock

end Runs

section Checks

/-- The log entry whose message a thread has finished. -/
def finishedMessage (w : State K) (k : ℕ) : Option (Entry (Op K) Res) :=
  match w.threads[k]? with
  | some (.message source _, .done (.value ())) => w.log[source]?
  | _ => none

/-- Finished work on the message of a record has consumed the record. -/
theorem consumed_of_finishedMessage {w : State K} {k : ℕ} {e : Entry (Op K) Res}
    {record : ProducerRecord K} (he : finishedMessage w k = some e)
    (hrecord : sentRecord e.event = some record) : Consumed w k e.thread record := by
  unfold finishedMessage at he
  split at he
  · rename_i source payload hthread
    exact ⟨source, e, payload, _, he, rfl, hrecord, hthread, ⟨(), rfl⟩⟩
  · simp at he

variable [Field K] [LinearOrder K] [FloorRing K]

/-- The request whose envelope a thread has finished, its client, and the decision. -/
def consumedAs (d : Deployment K) (w : State K) (k : ℕ) : Option (ℕ × String × Decision) := do
  let e ← finishedMessage w k
  let record ← sentRecord e.event
  let result ← scoreSignal d.engine (record.value.signal.received d.mapOrder)
  some (e.thread, record.value.clientIp, result.decision)

/-- Finished work has consumed a record. -/
theorem consumed_of_consumedAs {d : Deployment K} {w : State K} {k i : ℕ} {c : String}
    {decision : Decision} (h : consumedAs d w k = some (i, c, decision)) :
    ∃ record result, Consumed w k i record ∧ record.value.clientIp = c ∧
      scoreSignal d.engine (record.value.signal.received d.mapOrder) = some result ∧
      result.decision = decision := by
  obtain ⟨e, he, h⟩ := Option.bind_eq_some_iff.mp h
  obtain ⟨record, hrecord, h⟩ := Option.bind_eq_some_iff.mp h
  obtain ⟨result, hresult, h⟩ := Option.bind_eq_some_iff.mp h
  simp only [Option.some.injEq, Prod.mk.injEq] at h
  obtain ⟨rfl, rfl, rfl⟩ := h
  exact ⟨record, result, consumed_of_finishedMessage he hrecord, rfl, hresult, rfl⟩

end Checks

/-- A run in which the consumer blocks the client of a registration. -/
def consumedRegistration : State ℚ :=
  sample.system.after
    (.spawn (.request (sampleRequest "/api/auth/register" "10.0.0.1")) ::
      callTop 1 0 sampleEnv ++ callCounters true 0 sampleEnv ++ callTop 4 0 sampleEnv ++
      .spawn (.message 8) :: callTop 2 1 sampleEnv) start

/-- In that run the consumer has scored the envelope of the registration as a block. -/
theorem consumedRegistration_run :
    sample.system.Run StoreAnswers start consumedRegistration ∧
      consumedAs sample consumedRegistration 1 = some (0, "10.0.0.1", .block) ∧
      requestAt consumedRegistration.labels 0 =
        some (sampleRequest "/api/auth/register" "10.0.0.1") :=
  System.Run.after_and (by decide +kernel) (by decide)

/-- The gateway and the consumer have blocked the same client. -/
theorem registration_and_login_blocked :
    BlockedBy sample repeatedLogin 0 "10.0.0.1" ∧
      BlockedBy sample consumedRegistration 1 "10.0.0.1" := by
  constructor
  · exact (both_writers_block (System.Run.after rfl (by decide)) (by decide) (by decide)
      (show repeatedLogin.threads[0]? = some (.request (sampleRequest "/api/auth/login" "10.0.0.1"),
        .done (.value ())) from rfl) rfl).1 [] _ (.value blockingScore) blockingScore _ ⟨(), rfl⟩
      (List.mem_of_getElem? (show (repeatedLogin.events 0)[9]? = some _ from rfl)) rfl rfl rfl
  · obtain ⟨hrun, hworked, hrequest⟩ := consumedRegistration_run
    obtain ⟨record, result, hconsumed, -, hscore, hblock⟩ := consumed_of_consumedAs hworked
    obtain ⟨m, hm⟩ := World.exists_thread (requestAt_eq_some.mp hrequest)
    exact ((both_writers_block hrun (by decide) (by decide) hm rfl).2 1 record result hconsumed
      hscore hblock).mpr (by decide)

/-- A request without a peer address. -/
def unknownRequest : Exchange :=
  { sampleRequest "/api/auth/register" "" with remoteAddress := none }

/-- A run in which the consumer does not block the client of a registration, since it is not
known. -/
def unknownRegistration : State ℚ :=
  sample.system.after
    (.spawn (.request unknownRequest) ::
      callTop 1 0 sampleEnv ++ callCounters true 0 sampleEnv ++ callTop 4 0 sampleEnv ++
      .spawn (.message 8) :: callTop 1 1 sampleEnv) start

/-- In that run the consumer has scored the envelope of the unknown client as a block, and has written
nothing about it. -/
theorem unknownRegistration_run :
    sample.system.Run StoreAnswers start unknownRegistration ∧
      consumedAs sample unknownRegistration 1 = some (0, "unknown", .block) ∧
      requestAt unknownRegistration.labels 0 = some unknownRequest ∧
      unknownRegistration.shared.get unknownRegistration.now (blocklistKey "unknown") = none :=
  System.Run.after_and (by decide +kernel) (by decide)

/-- The consumer has scored the envelope of the unknown client as a block, and the client is not
blocked. -/
theorem unknown_not_blocked :
    sample.system.Run StoreAnswers start unknownRegistration ∧
      resolveClientIp unknownRequest = some "unknown" ∧
      ∃ record result, Consumed unknownRegistration 1 0 record ∧
        record.value.clientIp = "unknown" ∧
        scoreSignal sample.engine (record.value.signal.received sample.mapOrder) = some result ∧
        result.decision = .block ∧
        unknownRegistration.shared.get unknownRegistration.now (blocklistKey "unknown") = none := by
  obtain ⟨hrun, hworked, -, hunwritten⟩ := unknownRegistration_run
  obtain ⟨record, result, hconsumed, hclient, hscore, hblock⟩ := consumed_of_consumedAs hworked
  exact ⟨hrun, rfl, record, result, hconsumed, hclient, hscore, hblock, hunwritten⟩

end ApiFirewall.Guarantees
