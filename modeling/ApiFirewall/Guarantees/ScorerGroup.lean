import ApiFirewall.ConsumerRuns
import ApiFirewall.Reactive.WorkerGroup

/-!
# The scoring consumer and its restarts

The consumer of the raw topic commits its position in the background, works on one record at a time and
begins at the end of a partition that has no committed offset. However often its process is killed,
and whenever offsets are committed, a record that was passed over has had its calls attempted, or its
process was cut off while it worked on that very record, or it was left out by a process that found
no committed offset, or it cannot be deserialized. A process works on the records of one client in
their order, so it loses the last record that it works on at most.
-/

namespace ApiFirewall.Guarantees

open ApiFirewall.Wire ApiFirewall.Gateway ApiFirewall.Engine ApiFirewall.Engine.KafkaConsumer
open ApiFirewall.Reactive ApiFirewall.Reactive.WorkerGroup Deployment

variable {π K : Type} [Field K] [LinearOrder K] [FloorRing K]

/-- The work on a record of the raw topic, if its value can be deserialized. -/
def scorerWork (config : EngineConfig K) (deserialize : Bytes → Option (Json K))
    (topic : π × ℕ → Bytes) (record : π × ℕ) : Option (Program K Unit) :=
  (deserialize (topic record)).map (processMessage config)

/-- What has become of a record: its calls were attempted, in order and up to the first one that
failed; or a process is working on it, or was cut off when it was, and has performed no calls but the
record's; or it was left out; or it cannot be deserialized. -/
inductive Fate (config : EngineConfig K) (deserialize : Bytes → Option (Json K))
    (topic : π × ℕ → Bytes) (g : WorkerGroup π (Op K) Res) (record : π × ℕ) : Prop where
  | attempted {a : Effort π (Op K) Res} {payload : Json K} (hmem : a ∈ g.process.ended)
      (hrecord : a.item = record) (hpayload : deserialize (topic record) = some payload)
      (h : Attempted (effectsOf config payload) a.events)
  | underway {a : Effort π (Op K) Res} {m' : Program K Unit} {payload : Json K}
      (hcurrent : g.process.current = some (a, m')) (hrecord : a.item = record)
      (hpayload : deserialize (topic record) = some payload)
      (h : ∀ e ∈ a.events, e.op ∈ effectsOf config payload)
  | cut {a : Effort π (Op K) Res} {payload : Json K} (hmem : a ∈ g.process.ended)
      (hcut : a.completed = false) (hprocess : a.process < g.process.starts) (hrecord : a.item = record)
      (hpayload : deserialize (topic record) = some payload)
      (h : ∀ e ∈ a.events, e.op ∈ effectsOf config payload)
  | skipped (range : ℕ × ℕ) (hmem : range ∈ g.process.skipped record.1)
      (hfrom : range.1 ≤ record.2) (hto : record.2 < range.2)
  | malformed (h : deserialize (topic record) = none)

variable {config : EngineConfig K} {deserialize : Bytes → Option (Json K)} {topic : π × ℕ → Bytes}
  {g : WorkerGroup π (Op K) Res}

/-- The calls of an effort are calls of its record, and are attempted up to the first one that failed
if the effort is completed. -/
theorem effects_of_explained {a : Effort π (Op K) Res} {m' : Program K Unit}
    (h : Traced (scorerWork config deserialize topic) a m') :
    ∃ payload, deserialize (topic a.item) = some payload ∧
      (∀ e ∈ a.events, e.op ∈ effectsOf config payload) ∧
      (a.completed = true → Attempted (effectsOf config payload) a.events) := by
  obtain ⟨⟨m, hwork, htrace⟩, hcompleted⟩ := h
  obtain ⟨payload, hpayload, rfl⟩ := Option.map_eq_some_iff.mp hwork
  refine ⟨payload, hpayload, (htrace.emits (processMessage_emits_effects config payload)).1, ?_⟩
  intro htrue
  obtain ⟨s, rfl⟩ := hcompleted htrue
  exact (processMessage_attempted config htrace).2

/-- A record that is accounted for has one of these fates. -/
theorem Fate.of_accounted (hsound : Sound (scorerWork config deserialize topic) g)
    {record : π × ℕ}
    (h : WorkerGroup.Accounted (scorerWork config deserialize topic) g.process record) :
    Fate config deserialize topic g record := by
  cases h with
  | attempted a hmem hrecord =>
    rcases List.mem_append.mp hmem with hended | hcurrent
    · obtain ⟨m', htraced⟩ := hsound.underway.traced a hended
      obtain ⟨payload, hpayload, hcalls, hattempted⟩ := effects_of_explained htraced
      rw [hrecord] at hpayload
      by_cases hcompleted : a.completed = true
      · exact .attempted hended hrecord hpayload (hattempted hcompleted)
      · have hcut : a.completed = false := by simpa using hcompleted
        exact .cut hended hcut (hsound.underway.superseded a hended hcut) hrecord hpayload hcalls
    · obtain ⟨⟨b, m'⟩, hb, rfl⟩ : ∃ c, g.process.current = some c ∧ c.1 = a := by
        simpa [Option.mem_toList] using hcurrent
      obtain ⟨payload, hpayload, hcalls, -⟩ := effects_of_explained (hsound.underway.current b m' hb).1
      exact .underway hb hrecord (hrecord ▸ hpayload) hcalls
  | skipped range hmem hfrom hto => exact .skipped range hmem hfrom hto
  | unworkable hnone => exact .malformed (Option.map_eq_none_iff.mp hnone)

/-- An earlier effort and a later one: no process comes back, one that was cut off has made no later
effort, and one process takes the records of a client in their order. -/
structure InOrder (client : π × ℕ → String) (a b : Effort π (Op K) Res) : Prop where
  process : a.process ≤ b.process
  cut : a.completed = false → a.process < b.process
  client : a.process = b.process → client a.item = client b.item → a.item.2 < b.item.2

/-- In every run of the consumer and its successors, in which records of one client belong to one
partition: every record below the position is accounted for, and efforts are in order. -/
theorem passed_records_accounted [DecidableEq π]
    (h : Reached (scorerWork config deserialize topic) g) {client : π × ℕ → String}
    (hkeys : ∀ r r', client r = client r' → r.1 = r'.1) :
    (∀ p, ∀ m < g.next p, Fate config deserialize topic g (p, m)) ∧
      g.process.efforts.Pairwise (InOrder client) := by
  have hsound := h.sound
  refine ⟨fun p m hm => .of_accounted hsound (hsound.items.fetched p m hm), hsound.ordered.imp ?_⟩
  intro a b hbefore
  exact ⟨hbefore.process, hbefore.cut, fun hprocess hclient =>
    hbefore.offset hprocess (hkeys _ _ hclient)⟩

/-- A topic with one partition, all of one client. -/
def oneClientTopic (_ : Unit × ℕ) : Bytes := sampleRecord "10.0.0.9"

/-- A process works on a record to its end and is killed when it works on the next one, whose offset
has been committed. -/
def killedActions : List (OffsetGroup.Action Unit (Act Unit (Op ℚ) Res)) :=
  [.start, .produce (), .produce (), .act (.fetch () true), .act (.call [] fun _ => .empty),
   .act (.call [] fun _ => .empty), .act .finish, .act (.fetch () true),
   .act (.call [] fun _ => .empty), .commit () 2, .start]

/-- The first record was attempted to its end, and no process comes back to the second one. -/
theorem killedScorer_accounted : ∃ g,
    Reached (scorerWork sample.engine sampleDeserialize oneClientTopic) g ∧
      g.next () = 2 ∧ g.process.ended.map Effort.completed = [true, false] ∧
      Fate sample.engine sampleDeserialize oneClientTopic g ((), 1) ∧
      g.process.efforts.Pairwise (InOrder fun _ => "10.0.0.9") := by
  obtain ⟨g, hexec, hstate⟩ := Option.map_eq_some_iff.mp
    (show (init.exec (member (scorerWork sample.engine sampleDeserialize oneClientTopic))
      killedActions).map (fun g => (g.next (), g.process.ended.map Effort.completed)) =
        some (2, [true, false]) by decide +kernel)
  obtain ⟨hnext, hended⟩ := Prod.mk.inj hstate
  have hreached : Reached (scorerWork sample.engine sampleDeserialize oneClientTopic) g :=
    OffsetGroup.reached_of_exec .init (fun _ _ _ => trivial) hexec
  obtain ⟨hfates, hordered⟩ :=
    @passed_records_accounted Unit ℚ _ _ _ sample.engine sampleDeserialize oneClientTopic g _ hreached
      (fun _ => "10.0.0.9") fun _ _ _ => rfl
  exact ⟨g, hreached, hnext, hended, hfates () 1 (by omega), hordered⟩

end ApiFirewall.Guarantees
