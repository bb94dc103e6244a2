import ApiFirewall.ConsumerRuns
import ApiFirewall.Indexer.AuditIndexer

/-!
# Malformed records

Both consumers deserialize a record while they fetch it, outside the code that skips or logs what
goes wrong with an event. So a message without a valid signal is skipped, but a record that cannot
be deserialized ends the loop, and the valid records behind it are neither scored nor indexed.
-/

namespace ApiFirewall.Guarantees

open ApiFirewall.Wire ApiFirewall.Gateway ApiFirewall.Engine ApiFirewall.Engine.KafkaConsumer
open ApiFirewall.Indexer ApiFirewall.KeyValue ApiFirewall.Reactive

variable {K : Type}

/-- What the indexer can learn while these records are on its topic: the next event, or an exception
where the record cannot be deserialized, or that no record came in time. It is shut down only once
every record has been fetched. -/
inductive Feeds {β : Type} (deserialize : Bytes → Option β) : List Bytes → List (Input β) → Prop where
  | nil (records : List Bytes) : Feeds deserialize records []
  | message {record : Bytes} {event : β} {records : List Bytes} {inputs : List (Input β)}
      (hrecord : deserialize record = some event) (hrest : Feeds deserialize records inputs) :
      Feeds deserialize (record :: records) (.message event :: inputs)
  | malformed {record : Bytes} {records : List Bytes} {inputs : List (Input β)}
      (hrecord : deserialize record = none) (hrest : Feeds deserialize records inputs) :
      Feeds deserialize (record :: records) (.raised :: inputs)
  | timeout {records : List Bytes} {inputs : List (Input β)}
      (hrest : Feeds deserialize records inputs) : Feeds deserialize records (.timeout :: inputs)
  | bulk {outcome : BulkOutcome} {records : List Bytes} {inputs : List (Input β)}
      (hcancelled : outcome = .cancelled → records = []) (hrest : Feeds deserialize records inputs) :
      Feeds deserialize records (.bulk outcome :: inputs)
  | shutdown {inputs : List (Input β)} (hrest : Feeds deserialize [] inputs) :
      Feeds deserialize [] (.raised :: inputs)

/-- An indexer that has ended has fetched the records before the first one that cannot be
deserialized. -/
theorem messages_of_feeds {deserialize : Bytes → Option (Json K)} {batchSize : ℤ}
    {records : List Bytes} {inputs : List (Input (Json K))} {s s' : AuditIndexer (Json K)}
    {bulks : List (List (Json K))} (hfeeds : Feeds deserialize records inputs)
    (hexec : AuditIndexer.exec batchSize s inputs = some (s', bulks)) (hloop : ¬ s.Leaving)
    (hstopped : s'.position = .stopped) :
    AuditIndexer.messages inputs = consumed deserialize records := by
  induction hfeeds generalizing s bulks with
  | nil records =>
    obtain ⟨rfl, -⟩ := Prod.mk.inj (Option.some.inj hexec)
    exact absurd (.inr hstopped) hloop
  | message hrecord _ ih =>
    obtain ⟨s₁, later, hloop₁, hrest⟩ :=
      AuditIndexer.loop_of_not_ends hexec hloop (by simp [AuditIndexer.Ends])
    rw [AuditIndexer.messages_message, consumed, hrecord, ih hrest hloop₁]
  | malformed hrecord _ _ =>
    rw [AuditIndexer.messages_raised, consumed, hrecord,
      AuditIndexer.messages_of_ends hexec (.inl rfl)]
  | timeout _ ih =>
    obtain ⟨s₁, later, hloop₁, hrest⟩ :=
      AuditIndexer.loop_of_not_ends hexec hloop (by simp [AuditIndexer.Ends])
    exact ih hrest hloop₁
  | @bulk outcome records inputs hcancelled _ ih =>
    rw [AuditIndexer.messages_bulk]
    by_cases houtcome : outcome = .cancelled
    · subst houtcome
      obtain rfl := hcancelled rfl
      exact AuditIndexer.messages_of_ends hexec (.inr rfl)
    · obtain ⟨s₁, later, hloop₁, hrest⟩ :=
        AuditIndexer.loop_of_not_ends hexec hloop (by simpa [AuditIndexer.Ends] using houtcome)
      exact ih hrest hloop₁
  | shutdown _ _ =>
    rw [AuditIndexer.messages_raised, AuditIndexer.messages_of_ends hexec (.inl rfl)]
    rfl

/-- For every sequence of records: the consumer publishes the audit event of every message that
scores exactly if no call fails and none of them comes after a record that cannot be deserialized,
and the indexer, once it has ended, has passed every event to a bulk call exactly if none of them
comes after such a record. -/
theorem valid_records_served_iff [Field K] [LinearOrder K] [FloorRing K] (config : EngineConfig K)
    (deserialize : Bytes → Option (Json K)) (records : List Bytes) :
    (∀ tr s, Trace (consumeLoop config deserialize records) tr (.done s) →
      (published tr = records.filterMap (fun record =>
          (deserialize record).bind (auditOf config)) ↔
        AllSucceed tr ∧ NothingAfterMalformed deserialize (auditOf config) records)) ∧
    ∀ batchSize inputs s bulks, Feeds deserialize records inputs →
      AuditIndexer.exec batchSize .start inputs = some (s, bulks) → s.position = .stopped →
        (bulks.flatten = records.filterMap deserialize ↔
          NothingAfterMalformed deserialize some records) := by
  constructor
  · intro tr s h
    obtain ⟨parts, rfl, hparts⟩ := consumeLoop_trace config deserialize h
    obtain ⟨hsub, hiff⟩ := published_of_parts (hparts.imp fun _ _ => worked_of_attempted)
    rw [← hiff, ← filterMap_consumed_eq_iff]
    constructor
    · intro hall
      have hsame : (consumed deserialize records).filterMap (auditOf config) =
          records.filterMap fun record => (deserialize record).bind (auditOf config) :=
        (sublist_consumed _ _).antisymm (hall ▸ hsub)
      exact ⟨hall.trans hsame.symm, hsame⟩
    · exact fun hboth => hboth.1.trans hboth.2
  · intro batchSize inputs s bulks hfeeds hexec hstopped
    obtain ⟨hcontents, -⟩ := AuditIndexer.conserved_of_exec hexec
    have hmessages := messages_of_feeds hfeeds hexec (by simp [AuditIndexer.Leaving, AuditIndexer.start])
      hstopped
    have hsent : bulks.flatten = consumed deserialize records := by
      rw [← hmessages, ← hcontents, AuditIndexer.unsent, hstopped, List.append_nil]
    rw [hsent, ← filterMap_consumed_eq_iff]
    simp

open Deployment

/-- A record that is not even text cannot be deserialized. -/
theorem sampleDeserialize_malformed : sampleDeserialize malformedRecord = none := by decide +kernel

/-- A valid record, and one that cannot be deserialized. -/
def brokenOff : List Bytes := [sampleRecord "10.0.0.9", malformedRecord]

/-- A run in which the consumer works on the first of them. -/
def oneRecord : ConsumerState ℚ :=
  (sample.consumers sampleDeserialize).after
    [.spawn brokenOff, .call 0 [] sampleEnv, .call 0 [] sampleEnv] (World.init Store.empty)

/-- A valid record before a malformed one is scored and audited, and its event is indexed. -/
theorem oneRecord_served :
    published (oneRecord.log.map Entry.event) = brokenOff.filterMap (fun record =>
      (sampleDeserialize record).bind (auditOf sample.engine)) ∧
    [[sampleMessage "10.0.0.9"]].flatten = brokenOff.filterMap sampleDeserialize := by
  have hnothing : ∀ {β : Type} (f : Json ℚ → Option β),
      NothingAfterMalformed sampleDeserialize f brokenOff := by
    intro β f pre record post hsplit hmalformed
    rcases pre with _ | ⟨first, _ | ⟨second, pre⟩⟩
    · obtain ⟨rfl, -⟩ := List.cons.inj hsplit
      rw [sampleDeserialize_known] at hmalformed
      cases hmalformed
    · obtain ⟨-, hrest⟩ := List.cons.inj hsplit
      obtain ⟨-, rfl⟩ := List.cons.inj hrest
      simp
    · simp [brokenOff] at hsplit
  obtain ⟨hrun, hrecords, hok⟩ :
      (sample.consumers sampleDeserialize).Run (Action.Keeps 0) (World.init Store.empty) oneRecord ∧
        endedRecords oneRecord = some (brokenOff, .error) ∧
        (oneRecord.log.map Entry.event).all (fun e => !e.reply.isError) = true :=
    System.Run.after_and (by decide +kernel) (by simp [Action.Keeps])
  have hfeeds : Feeds sampleDeserialize brokenOff
      [.message (sampleMessage "10.0.0.9"), .raised, .bulk .indexed] :=
    .message sampleDeserialize_known (.malformed sampleDeserialize_malformed (.bulk (by simp) (.nil [])))
  obtain ⟨hscored, hindexed⟩ := valid_records_served_iff sample.engine sampleDeserialize brokenOff
  exact ⟨(hscored _ _ (loopTrace_of_ended (ended_of_endedRecords hrecords) hrun)).mpr
    ⟨allSucceed_iff_all.mpr hok, hnothing _⟩,
    (hindexed 200 _ ⟨.stopped, []⟩ _ hfeeds rfl rfl).mpr (hnothing _)⟩

/-- Behind a record that is not even text, a valid record is neither scored nor indexed. -/
theorem record_behind_malformed :
    (¬ ∀ records tr s, Trace (consumeLoop sample.engine sampleDeserialize records) tr (.done s) →
      AllSucceed tr → published tr = records.filterMap fun record =>
        (sampleDeserialize record).bind (auditOf sample.engine)) ∧
    ¬ ∀ records inputs s bulks, Feeds sampleDeserialize records inputs →
      AuditIndexer.exec 200 .start inputs = some (s, bulks) → s.position = .stopped →
        bulks.flatten = records.filterMap sampleDeserialize := by
  have hmalformed := sampleDeserialize_malformed
  constructor
  · intro hserved
    have htrace : Trace (consumeLoop sample.engine sampleDeserialize
        [malformedRecord, sampleRecord "10.0.0.9"]) [] (.done .error) := by
      rw [consumeLoop, hmalformed]
      exact .nil _
    have hscored : (auditOf sample.engine (sampleMessage "10.0.0.9")).isSome = true := by
      decide +kernel
    have hnone := hserved _ _ _ htrace allSucceed_nil
    simp [hmalformed, sampleDeserialize_known, Option.isSome_iff_ne_none.mp hscored] at hnone
  · intro hserved
    have hfeeds : Feeds sampleDeserialize [malformedRecord, sampleRecord "10.0.0.9"] [.raised] :=
      .malformed hmalformed (.nil _)
    have hnone := hserved _ _ ⟨.stopped, []⟩ [] hfeeds rfl rfl
    simp [hmalformed, sampleDeserialize_known] at hnone

end ApiFirewall.Guarantees
