import ApiFirewall.ConsumerRuns

/-!
# Blocks and audit events of the consumer

A message is blocked first and audited second, and a failure of either call ends the work on it.
So a message leaves its one audit event if none of its calls failed and no event otherwise, and a
block can be left without an audit event. A block is also never left for the client that stands
for an unknown one. Between messages, these are the only ways in which enforcement and audit part.
-/

namespace ApiFirewall.Guarantees

open ApiFirewall.Wire ApiFirewall.Gateway ApiFirewall.Engine ApiFirewall.Engine.KafkaConsumer
open ApiFirewall.KeyValue ApiFirewall.Reactive

variable {K : Type} [Field K] [LinearOrder K] [FloorRing K]

/-- The calls of a message have published its one audit event if it was scored, and have written
its client to the blocklist if and only if they have published an event that says so. -/
def Atomic (config : EngineConfig K) (payload : Json K) (part : Gateway.Events K) : Prop :=
  (∀ event, auditOf config payload = some event → published part = [event]) ∧
    (written part ≠ [] ↔ ∃ event ∈ published part, event.decision = Decision.block.text)

/-- Between messages, enforcement and audit of every message that was worked on agree. -/
def AtomicConsumer (config : EngineConfig K) (deserialize : Bytes → Option (Json K)) : Prop :=
  ∀ records tr s, Trace (consumeLoop config deserialize records) tr (.done s) →
    ∃ parts : List (Gateway.Events K), tr = parts.flatten ∧
      List.Forall₂ (fun payload part => Attempted (effectsOf config payload) part ∧
        Atomic config payload part) (consumed deserialize records) parts

/-- What the calls of a message have left behind. -/
structure Accounted (config : EngineConfig K) (payload : Json K) (part : Gateway.Events K) :
    Prop where
  /-- The calls are those of the message, up to the first one that failed. -/
  attempted : Attempted (effectsOf config payload) part
  /-- If no call has failed, the message has its one audit event if it was scored. -/
  audited : AllSucceed part → published part = (auditOf config payload).toList
  /-- If a call has failed, the message has no audit event. -/
  unaudited : ¬ AllSucceed part → published part = []
  /-- A client is written only for a message that was scored as a block and names it. -/
  blocked : ∀ entry ∈ written part, ∃ event client, auditOf config payload = some event ∧
    event.decision = Decision.block.text ∧ isKnown event.clientIp = true ∧
    formatMember config event.clientIp = Text.ofString client ∧
    entry = blockEntry (client, event.reason)
  /-- Enforcement and audit agree unless a call failed or the client to block is unknown. -/
  atomic_iff : Atomic config payload part ↔ AllSucceed part ∧
    ∀ event, auditOf config payload = some event → event.decision = Decision.block.text →
      isKnown event.clientIp = true

variable {config : EngineConfig K} {deserialize : Bytes → Option (Json K)}

/-- If no call of a message has failed, enforcement and audit agree exactly if the message does not
block an unknown client. -/
private theorem atomic_iff_of_allSucceed {payload : Json K} {part : Gateway.Events K}
    (hpublished : published part = (auditOf config payload).toList)
    (hwritten : written part = ((blockOf config payload).map blockEntry).toList) :
    Atomic config payload part ↔
      ∀ event, auditOf config payload = some event → event.decision = Decision.block.text →
        isKnown event.clientIp = true := by
  cases haudit : auditOf config payload with
  | none =>
    have hblock : blockOf config payload = none := by
      by_contra hne
      obtain ⟨block, hblock⟩ := Option.ne_none_iff_exists'.mp hne
      obtain ⟨event, hevent⟩ := auditOf_of_blockOf hblock
      simp [haudit] at hevent
    simp [Atomic, hpublished, hwritten, haudit, hblock]
  | some event =>
    have hblocks : written part ≠ [] ↔
        event.decision = Decision.block.text ∧ isKnown event.clientIp = true := by
      constructor
      · intro hne
        cases hblock : blockOf config payload with
        | none => simp [hwritten, hblock] at hne
        | some block =>
          obtain ⟨event', hevent, hdecision, hknown, -⟩ := blockOf_eq_some.mp hblock
          obtain rfl := Option.some.inj (haudit.symm.trans hevent)
          exact ⟨hdecision, hknown⟩
      · rintro ⟨hdecision, hknown⟩
        obtain ⟨block, hblock⟩ := exists_blockOf haudit hdecision hknown
        rw [hwritten, hblock]
        simp
    rw [Atomic, hblocks, hpublished, haudit]
    simp

/-- Finished work on a message has left behind what it can. -/
theorem accounted_of_attempted {payload : Json K} {part : Gateway.Events K}
    (h : Attempted (effectsOf config payload) part) : Accounted config payload part := by
  have hworked := worked_of_attempted h
  obtain ⟨haudited, hunaudited⟩ := published_of_worked hworked
  obtain ⟨hall, hentries⟩ := written_of_worked hworked
  refine ⟨h, haudited, fun hfailed => (hunaudited hfailed).1, fun entry hentry => ?_, ?_⟩
  · obtain ⟨block, hblock, rfl⟩ := Option.map_eq_some_iff.mp (hentries entry hentry)
    obtain ⟨event, hevent, hdecision, hknown, hclient, hreason⟩ := blockOf_eq_some.mp hblock
    exact ⟨event, block.1, hevent, hdecision, hknown, hclient, congrArg _ (Prod.ext rfl hreason.symm)⟩
  · by_cases hok : AllSucceed part
    · simp only [hok, true_and]
      exact atomic_iff_of_allSucceed (haudited hok) (hall hok)
    · obtain ⟨hnone, hscored⟩ := hunaudited hok
      obtain ⟨event, hevent⟩ := Option.isSome_iff_exists.mp hscored
      refine iff_of_false (fun hatomic => ?_) fun hboth => hok hboth.1
      have := hatomic.1 event hevent
      simp [hnone] at this

/-- Between messages, whatever the records are and however the calls went, each message that was
worked on has left its audit event exactly if it was scored and none of its calls failed, has left
a block only if it was scored as a block of a known client, and has left both or neither unless a
call failed or the client to block is unknown. -/
theorem messages_accounted {records : List Bytes} {tr : Gateway.Events K} {s : Signal Unit}
    (h : Trace (consumeLoop config deserialize records) tr (.done s)) :
    ∃ parts : List (Gateway.Events K), tr = parts.flatten ∧
      List.Forall₂ (Accounted config) (consumed deserialize records) parts := by
  obtain ⟨parts, htr, hparts⟩ := consumeLoop_trace config deserialize h
  exact ⟨parts, htr, hparts.imp fun _ _ => accounted_of_attempted⟩

open Deployment

/-- A call of the sample consumer that succeeds or fails. -/
def consumerCall (succeeds : Bool) : Action (List Bytes) (Env ℚ) :=
  .call 0 [] { sampleEnv with succeeds }

/-- A run in which the consumer scores two clients as blocks, one of them unknown, and publishes
both events. -/
def twoBlocks : ConsumerState ℚ :=
  (sample.consumers sampleDeserialize).after
    [.spawn [sampleRecord "10.0.0.9", sampleRecord "unknown"], consumerCall true,
      consumerCall true, consumerCall true] (World.init Store.empty)

/-- The messages of that run are accounted for. -/
theorem twoBlocks_accounted : ∃ parts : List (Gateway.Events ℚ),
    twoBlocks.log.map Entry.event = parts.flatten ∧
      List.Forall₂ (Accounted sample.engine)
        (consumed sampleDeserialize [sampleRecord "10.0.0.9", sampleRecord "unknown"]) parts := by
  obtain ⟨hrun, hrecords⟩ : (sample.consumers sampleDeserialize).Run (fun _ => True)
      (World.init Store.empty) twoBlocks ∧
      endedRecords twoBlocks = some ([sampleRecord "10.0.0.9", sampleRecord "unknown"], .value ()) :=
    System.Run.after_and (by decide +kernel) fun _ _ => trivial
  exact messages_accounted (Finished.events (ended_of_endedRecords hrecords) hrun).2

/-- A run in which the consumer blocks a client and then fails to publish the event. -/
def lostAudit : ConsumerState ℚ :=
  (sample.consumers sampleDeserialize).after
    [.spawn [sampleRecord "10.0.0.9"], consumerCall true, consumerCall false]
    (World.init Store.empty)

/-- In that run enforcement and audit part. -/
theorem lostAudit_not_atomic : ¬ AtomicConsumer sample.engine sampleDeserialize := by
  intro hatomic
  obtain ⟨hrun, hrecords, hblocked, hunaudited⟩ :
      (sample.consumers sampleDeserialize).Run (fun _ => True) (World.init Store.empty) lostAudit ∧
        endedRecords lostAudit = some ([sampleRecord "10.0.0.9"], .value ()) ∧
        written (lostAudit.log.map Entry.event) ≠ [] ∧
        (published (lostAudit.log.map Entry.event)).length = 0 :=
    System.Run.after_and (by decide +kernel) fun _ _ => trivial
  obtain ⟨parts, htr, hparts⟩ :=
    hatomic _ _ _ (Finished.events (ended_of_endedRecords hrecords) hrun).2
  rw [consumed, sampleDeserialize_known] at hparts
  obtain ⟨part, rest, ⟨-, hpart⟩, hrest, rfl⟩ := List.forall₂_cons_left_iff.mp hparts
  obtain rfl := List.forall₂_nil_left_iff.mp hrest
  rw [List.flatten_singleton] at htr
  obtain ⟨event, hevent, -⟩ := hpart.2.mp (htr ▸ hblocked)
  rw [← htr, List.length_eq_zero_iff.mp hunaudited] at hevent
  simp at hevent

end ApiFirewall.Guarantees
