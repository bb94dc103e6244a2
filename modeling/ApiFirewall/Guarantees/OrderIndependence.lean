import ApiFirewall.ConsumerRuns

/-!
# The order of messages

A message asks for the same calls whatever came before it, and every block writes the same reason.
So the events that a consumer publishes and the keys that it leaves visible depend only on which
messages it has scored: not on their order, and not on the messages that it skips. The argument
goes through what the calls leave behind and never swaps two messages.
-/

namespace ApiFirewall.Guarantees

open ApiFirewall.Wire ApiFirewall.Gateway ApiFirewall.Engine ApiFirewall.Engine.KafkaConsumer
open ApiFirewall.Deployment ApiFirewall.KeyValue ApiFirewall.Reactive

variable {K : Type}

/-- Every key that was visible still is, and so is every key that was written. -/
def NothingExpires (s₀ : Store String) (w : ConsumerState K) : Prop :=
  (∀ k, s₀.get w.now k = s₀.get 0 k) ∧
    ∀ e ∈ w.log, ∀ k v ttl, e.event.op = .redis (.set k v ttl) → w.now < e.time + ttl

/-- After writes of one text, a key shows that text if it was written, and else what it showed
before. -/
theorem value_of_storeFrom {s₀ : Store String} {log : List (Entry (Op K) Res)} {now : ℕ}
    {reason : String} (hwrites : ∀ e ∈ log, ∀ c, e.event.op = .redis c →
      ∃ k ttl, c = .set k reason ttl ∧ e.time ≤ now ∧ now < e.time + ttl) (k : String) :
    ((∃ e ∈ log, ∃ ttl, e.event.op = .redis (.set k reason ttl)) →
      ((storeFrom s₀ log).get now k).map Cell.value = some (.text reason)) ∧
    ((¬ ∃ e ∈ log, ∃ ttl, e.event.op = .redis (.set k reason ttl)) →
      (storeFrom s₀ log).get now k = s₀.get now k) := by
  induction log using List.reverseRecOn with
  | nil => simp [storeFrom]
  | append_singleton log e ih =>
    have ih := ih fun e he => hwrites e (List.mem_append_left _ he)
    have hlast := hwrites e (List.mem_append_right _ (List.mem_singleton_self e))
    have hwritten : (∃ e' ∈ log ++ [e], ∃ ttl, e'.event.op = .redis (.set k reason ttl)) ↔
        (∃ e' ∈ log, ∃ ttl, e'.event.op = .redis (.set k reason ttl)) ∨
          ∃ ttl, e.event.op = .redis (.set k reason ttl) := by
      simp [or_and_right, exists_or]
    by_cases hop : ∃ c, e.event.op = .redis c
    · obtain ⟨c, hop⟩ := hop
      obtain ⟨k', ttl, rfl, htime, hlive⟩ := hlast c hop
      rw [storeFrom_concat_redis s₀ log hop]
      by_cases hk : k' = k
      · subst hk
        rw [Store.get_exec_set _ _ _ htime hlive]
        exact ⟨fun _ => rfl, fun hnone => absurd (hwritten.mpr (.inr ⟨ttl, hop⟩)) hnone⟩
      · have hother : ¬ ∃ ttl, e.event.op = .redis (.set k reason ttl) := by
          rintro ⟨ttl', hop'⟩
          rw [hop] at hop'
          simp only [Op.redis.injEq, Command.set.injEq] at hop'
          exact hk hop'.1
        rw [Store.get_exec_other (c := .set k' reason ttl) hk, hwritten, or_iff_left hother]
        exact ih
    · have hother : ¬ ∃ ttl, e.event.op = .redis (.set k reason ttl) := by
        rintro ⟨ttl, hwrite⟩
        exact hop ⟨_, hwrite⟩
      rw [storeFrom_concat_other s₀ log fun c hc => hop ⟨c, hc⟩, hwritten, or_iff_left hother]
      exact ih

variable [Field K] [LinearOrder K] [FloorRing K]

/-- The message of a record is scored; the work on any other one raises an exception. -/
def Scores (config : EngineConfig K) (deserialize : Bytes → Option (Json K)) (record : Bytes) : Bool :=
  ((deserialize record).bind (auditOf config)).isSome

/-- A consumer has worked through records that can all be deserialized, no call has failed, and no
key has expired. -/
structure Settled (d : Deployment K) (deserialize : Bytes → Option (Json K)) (s₀ : Store String)
    (records : List Bytes) (w : ConsumerState K) : Prop where
  run : (d.consumers deserialize).Run (fun _ => True) (World.init s₀) w
  finished : Finished w records
  decodable : ∀ record ∈ records, (deserialize record).isSome = true
  succeeded : AllSucceed (w.log.map Entry.event)
  kept : NothingExpires s₀ w

section Settled

variable {d : Deployment K} {deserialize : Bytes → Option (Json K)} {s₀ : Store String}
  {records : List Bytes} {w : ConsumerState K}

omit [Field K] [LinearOrder K] [FloorRing K] in
/-- Records that can all be deserialized are all worked on. -/
private theorem consumed_of_decodable (h : ∀ record ∈ records, (deserialize record).isSome = true) :
    consumed deserialize records = records.filterMap deserialize := by
  induction records with
  | nil => rfl
  | cons record rest ih =>
    obtain ⟨hrecord, hrest⟩ := List.forall_mem_cons.mp h
    obtain ⟨payload, hpayload⟩ := Option.isSome_iff_exists.mp hrecord
    rw [consumed, hpayload, List.filterMap_cons, hpayload, ih hrest]

/-- The events that are published are those of the records that score. -/
theorem Settled.published_eq (h : Settled d deserialize s₀ records w) :
    published (w.log.map Entry.event) = (records.filter (Scores d.engine deserialize)).filterMap
      fun record => (deserialize record).bind (auditOf d.engine) := by
  obtain ⟨parts, htr, hparts⟩ := consumeLoop_trace d.engine deserialize (h.finished.events h.run).2
  have hall := h.succeeded
  rw [htr] at hall ⊢
  rw [((published_of_parts (hparts.imp fun _ _ => worked_of_attempted)).2).mpr hall,
    consumed_of_decodable h.decodable, List.filterMap_filterMap, List.filterMap_filter]
  refine List.filterMap_congr fun record _ => ?_
  cases hscores : (deserialize record).bind (auditOf d.engine) <;> simp [Scores, hscores]

/-- The commands that are sent are the writes that the records ask for. -/
theorem Settled.commands_iff (h : Settled d deserialize s₀ records w) (c : Command String) :
    (∃ e ∈ w.log, e.event.op = .redis c) ↔ ∃ record ∈ records, ∃ block,
      (deserialize record).bind (blockOf d.engine) = some block ∧
        blockWrite d.engine block = .redis c := by
  have hops := consumeLoop_ops d.engine deserialize (h.finished.events h.run).2 h.succeeded
  rw [consumed_of_decodable h.decodable] at hops
  have hmem : (∃ e ∈ w.log, e.event.op = .redis c) ↔
      .redis c ∈ (records.filterMap deserialize).flatMap (effectsOf d.engine) := by
    rw [← hops]
    simp
  simp only [hmem, List.mem_flatMap, List.mem_filterMap, redis_mem_effectsOf,
    Option.bind_eq_some_iff]
  constructor
  · rintro ⟨payload, ⟨record, hrecord, hpayload⟩, block, hblock, hop⟩
    exact ⟨record, hrecord, block, ⟨payload, hpayload, hblock⟩, hop⟩
  · rintro ⟨record, hrecord, block, ⟨payload, hpayload, hblock⟩, hop⟩
    exact ⟨payload, ⟨record, hrecord, hpayload⟩, block, hblock, hop⟩

/-- Every command is a write of the one reason, and what it has written is still visible. -/
theorem Settled.writes (h : Settled d deserialize s₀ records w) :
    ∀ e ∈ w.log, ∀ c, e.event.op = .redis c → ∃ k ttl,
      c = .set k EnsembleThreatModel.blockReason ttl ∧ e.time ≤ w.now ∧ w.now < e.time + ttl := by
  intro e he c hop
  obtain ⟨record, -, block, hblock, hwrite⟩ := (h.commands_iff c).mp ⟨e, he, hop⟩
  obtain ⟨payload, -, hblock⟩ := Option.bind_eq_some_iff.mp hblock
  obtain rfl := Op.redis.inj hwrite
  rw [reason_of_blockOf hblock] at hop ⊢
  exact ⟨_, _, rfl, h.run.coherent.time_le e he, h.kept.2 e he _ _ _ hop⟩

/-- A key is written exactly if a record that scores asks to block its client. -/
theorem Settled.written_iff (h : Settled d deserialize s₀ records w) (k : String) :
    (∃ e ∈ w.log, ∃ ttl, e.event.op = .redis (.set k EnsembleThreatModel.blockReason ttl)) ↔
      ∃ record ∈ records.filter (Scores d.engine deserialize), ∃ block,
        (deserialize record).bind (blockOf d.engine) = some block ∧
          RedisStateService.blocklistKey block.1 = k := by
  constructor
  · rintro ⟨e, he, ttl, hop⟩
    obtain ⟨record, hrecord, block, hblock, hwrite⟩ := (h.commands_iff _).mp ⟨e, he, hop⟩
    refine ⟨record, List.mem_filter.mpr ⟨hrecord, ?_⟩, block, hblock, ?_⟩
    · obtain ⟨payload, hpayload, hblock⟩ := Option.bind_eq_some_iff.mp hblock
      obtain ⟨event, hevent⟩ := auditOf_of_blockOf hblock
      simp [Scores, hpayload, hevent]
    · simp only [blockWrite, Op.redis.injEq, Command.set.injEq] at hwrite
      exact hwrite.1
  · rintro ⟨record, hrecord, block, hblock, rfl⟩
    obtain ⟨e, he, hop⟩ := (h.commands_iff _).mpr
      ⟨record, (List.mem_filter.mp hrecord).1, block, hblock, rfl⟩
    obtain ⟨payload, -, hblock⟩ := Option.bind_eq_some_iff.mp hblock
    exact ⟨e, he, _, reason_of_blockOf hblock ▸ hop⟩

/-- What a key shows in the end. -/
theorem Settled.value_eq (h : Settled d deserialize s₀ records w) (k : String) :
    ((∃ record ∈ records.filter (Scores d.engine deserialize), ∃ block,
        (deserialize record).bind (blockOf d.engine) = some block ∧
          RedisStateService.blocklistKey block.1 = k) →
      (w.shared.get w.now k).map Cell.value = some (.text EnsembleThreatModel.blockReason)) ∧
    ((¬ ∃ record ∈ records.filter (Scores d.engine deserialize), ∃ block,
        (deserialize record).bind (blockOf d.engine) = some block ∧
          RedisStateService.blocklistKey block.1 = k) →
      w.shared.get w.now k = s₀.get 0 k) := by
  have hstore := storeFrom_of_run h.run fun e he => h.succeeded _ (List.mem_map_of_mem he)
  rw [← h.written_iff k, hstore, ← h.kept.1 k]
  exact value_of_storeFrom h.writes k

end Settled

/-- Two consumers that find the same store and score the same records, in any order and among any
other records that they skip, publish the same events as often and leave the same keys with the
same values. -/
theorem order_independent {d : Deployment K} {deserialize : Bytes → Option (Json K)}
    {s₀ : Store String} {records records' : List Bytes} {w w' : ConsumerState K}
    (h : Settled d deserialize s₀ records w) (h' : Settled d deserialize s₀ records' w')
    (hsame : (records.filter (Scores d.engine deserialize)).Perm
      (records'.filter (Scores d.engine deserialize))) :
    (published (w.log.map Entry.event)).Perm (published (w'.log.map Entry.event)) ∧
      ∀ k, (w.shared.get w.now k).map Cell.value = (w'.shared.get w'.now k).map Cell.value := by
  constructor
  · rw [h.published_eq, h'.published_eq]
    exact hsame.filterMap _
  · intro k
    by_cases hwritten : ∃ record ∈ records.filter (Scores d.engine deserialize), ∃ block,
        (deserialize record).bind (blockOf d.engine) = some block ∧
          RedisStateService.blocklistKey block.1 = k
    · obtain ⟨record, hrecord, hblock⟩ := hwritten
      rw [(h.value_eq k).1 ⟨record, hrecord, hblock⟩,
        (h'.value_eq k).1 ⟨record, hsame.mem_iff.mp hrecord, hblock⟩]
    · rw [(h.value_eq k).2 hwritten, (h'.value_eq k).2 fun ⟨record, hrecord, hblock⟩ =>
        hwritten ⟨record, hsame.mem_iff.mpr hrecord, hblock⟩]

/-- Soon after the start of an empty store no key has expired. -/
theorem nothingExpires_of_soon {d : Deployment K} {deserialize : Bytes → Option (Json K)}
    {records : List Bytes} {w : ConsumerState K}
    (hrun : (d.consumers deserialize).Run (fun _ => True) (World.init Store.empty) w)
    (hfinished : Finished w records) (hok : AllSucceed (w.log.map Entry.event))
    (hsoon : w.now < seconds d.engine.blocklistTtlSeconds) : NothingExpires Store.empty w := by
  refine ⟨fun k => rfl, fun e he k v ttl hop => ?_⟩
  have hmem : e.event.op ∈ (w.log.map Entry.event).map Event.op :=
    List.mem_map_of_mem (List.mem_map_of_mem he)
  rw [consumeLoop_ops d.engine deserialize (hfinished.events hrun).2 hok, hop] at hmem
  obtain ⟨payload, -, hpayload⟩ := List.mem_flatMap.mp hmem
  obtain ⟨block, -, hwrite⟩ := redis_mem_effectsOf.mp hpayload
  simp only [blockWrite, Op.redis.injEq, Command.set.injEq] at hwrite
  omega

/-- A run of the sample consumer in which every call succeeds. -/
def sampleRun (records : List Bytes) : ConsumerState ℚ :=
  (sample.consumers sampleDeserialize).after
    (.spawn records :: List.replicate 3 (.call 0 [] sampleEnv)) (World.init Store.empty)

/-- The two sample records in both orders, once with a message that is skipped, have the same
effects. -/
theorem sampleRuns_agree :
    let records := [sampleRecord "10.0.0.9", sampleRecord "unknown"]
    let records' := [sampleRecord "unknown", arrayRecord, sampleRecord "10.0.0.9"]
    (published ((sampleRun records).log.map Entry.event)).Perm
        (published ((sampleRun records').log.map Entry.event)) ∧
      ∀ k, ((sampleRun records).shared.get (sampleRun records).now k).map Cell.value =
        ((sampleRun records').shared.get (sampleRun records').now k).map Cell.value := by
  have hsettled : ∀ records,
      endedRecords (sampleRun records) = some (records, .value ()) ∧
        ((sample.consumers sampleDeserialize).exec
          (.spawn records :: List.replicate 3 (.call 0 [] sampleEnv))
            (World.init Store.empty)).isSome = true ∧
        records.all (fun record => (sampleDeserialize record).isSome) = true ∧
        ((sampleRun records).log.map Entry.event).all (fun e => !e.reply.isError) = true ∧
        (sampleRun records).now = 0 →
      Settled sample sampleDeserialize Store.empty records (sampleRun records) := by
    rintro records ⟨hrecords, hexec, hdecodable, hok, hnow⟩
    have hrun := System.Run.after hexec fun _ _ => trivial
    have hfinished : Finished _ _ := ended_of_endedRecords hrecords
    refine ⟨hrun, hfinished, List.all_eq_true.mp hdecodable, allSucceed_iff_all.mpr hok, ?_⟩
    exact nothingExpires_of_soon hrun hfinished ((allSucceed_iff_all.mpr hok)) (by rw [hnow]; decide)
  exact order_independent (hsettled _ (by decide +kernel)) (hsettled _ (by decide +kernel))
    (by decide +kernel)

end ApiFirewall.Guarantees
