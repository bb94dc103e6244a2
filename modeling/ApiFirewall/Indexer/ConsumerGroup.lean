import ApiFirewall.Indexer.AuditIndexer
import ApiFirewall.OffsetGroup

/-!
# The indexer in its consumer group

The processes of the group each run the indexer over the audit topic, which is a log of events for each
partition. The client library commits how far fetching has come, whatever has become of the fetched
events. A process can be killed at any point; the next one begins with an empty buffer.
-/

namespace ApiFirewall.Indexer

open ApiFirewall.Batching

/-- The loop of the present process, and the events that have been passed to a bulk call by this process or
an earlier one. -/
structure IndexerProcess (π : Type) where
  indexer : AuditIndexer (π × ℕ)
  submitted : List (π × ℕ)

/-- The topic and the process that consumes it. -/
abbrev ConsumerGroup (π : Type) := OffsetGroup π (IndexerProcess π)

namespace ConsumerGroup

/-- What the process does: it fetches an event, or takes a step for another reason. -/
inductive Act (π : Type) where
  | fetch (p : π)
  | other (input : Input (π × ℕ))
  deriving DecidableEq, Repr

variable {π : Type}

/-- An empty topic that nobody consumes. -/
def init : ConsumerGroup π := ⟨.init, ⟨⟨.stopped, []⟩, []⟩⟩

/-- A new process has an empty buffer. -/
def takeOver (g : ConsumerGroup π) : IndexerProcess π := { g.process with indexer := .start }

/-- A step of the process. -/
def advance (batchSize : ℤ) (w : IndexerProcess π) (input : Input (π × ℕ)) :
    Option (IndexerProcess π) :=
  (w.indexer.step batchSize input).map fun r =>
    { indexer := r.1, submitted := w.submitted ++ r.2.flatten }

variable [DecidableEq π]

/-- One action of the process; `none` if it cannot happen. -/
def act (batchSize : ℤ) (g : ConsumerGroup π) : Act π → Option (ConsumerGroup π)
  | .fetch p =>
    if g.next p < g.ends p then
      (advance batchSize g.process (.message (p, g.next p))).map fun w => ⟨g.passed p, w⟩
    else none
  | .other (.message _) => none
  | .other input => (advance batchSize g.process input).map fun w => { g with process := w }

/-- The processes of the group. -/
def member (batchSize : ℤ) : Member π (IndexerProcess π) (Act π) where
  takeOver := takeOver
  act := act batchSize

/-- The states that actions satisfying `ok` lead to. -/
abbrev Reached (batchSize : ℤ) (ok : ConsumerGroup π → OffsetGroup.Action π (Act π) → Prop)
    (g : ConsumerGroup π) : Prop :=
  OffsetGroup.Reached (member batchSize) ok init g

/-- Every event below a committed offset has been passed to a bulk call. -/
def Safe (g : ConsumerGroup π) : Prop :=
  ∀ p offset, g.committed p = some offset → ∀ m < offset, (p, m) ∈ g.process.submitted

/-- The action skips no event: a commit covers no event that still waits for its first bulk call,
and a process that takes over without a committed offset finds no such event in the partition. -/
def Covers (g : ConsumerGroup π) : OffsetGroup.Action π (Act π) → Prop
  | .commit p offset => ∀ m < offset, (p, m) ∈ g.process.indexer.unsent → (p, m) ∈ g.process.submitted
  | .start => ∀ p, g.committed p = none → ∀ m < g.ends p, (p, m) ∈ g.process.submitted
  | _ => True

/-- The event has been passed to a bulk call. -/
def Submitted (w : IndexerProcess π) (event : π × ℕ) : Prop := event ∈ w.submitted

/-- The event has been passed to a bulk call or waits for one. -/
def Kept (w : IndexerProcess π) (event : π × ℕ) : Prop :=
  event ∈ w.submitted ∨ event ∈ w.indexer.unsent

/-- What the processes have fetched has been passed to a bulk call or waits for one, in batches. -/
structure Sound (size : ℕ) (g : ConsumerGroup π) : Prop where
  events : g.Covered (Kept g.process) (Submitted g.process)
  batched : ∃ (b : Batches (π × ℕ) size) (bulks : List (List (π × ℕ))),
    AuditIndexer.Represents b g.process.indexer bulks

variable {batchSize : ℤ} {size : ℕ} {g g' : ConsumerGroup π} {w : IndexerProcess π}

omit [DecidableEq π] in
/-- Nothing has been committed and nothing fetched. -/
theorem sound_init (h : 0 < size) : Sound size (init : ConsumerGroup π) where
  events := Offsets.covered_init
  batched := ⟨.empty h, [], rfl, rfl, fun _ => rfl⟩

omit [DecidableEq π] in
/-- A step of the process keeps what it has fetched, the event of this step included. -/
theorem Sound.advance {input : Input (π × ℕ)} (hsize : (size : ℤ) = max 1 batchSize)
    (h : Sound size g) (hstep : ConsumerGroup.advance batchSize g.process input = some w) :
    Sound size { g with process := w } ∧ ∀ event ∈ AuditIndexer.messages [input], Kept w event := by
  obtain ⟨⟨s, issued⟩, hindexer, rfl⟩ := Option.map_eq_some_iff.mp hstep
  obtain ⟨b, bulks, hb⟩ := h.batched
  have hconserves := hb.conserves hsize hindexer
  have hkept : ∀ event ∈ g.process.indexer.unsent ++ AuditIndexer.messages [input],
      event ∈ g.process.submitted ++ issued.flatten ∨ event ∈ s.unsent := by
    intro event hevent
    rw [← hconserves] at hevent
    exact (List.mem_append.mp hevent).imp_left (List.mem_append_right _)
  obtain ⟨b', hb', -⟩ := hb.step hsize hindexer
  refine ⟨⟨h.events.imp (fun event hevent => ?_) fun event hevent => List.mem_append_left _ hevent,
    b', _, hb'⟩, fun event hevent => hkept event (List.mem_append_right _ hevent)⟩
  rcases hevent with hsubmitted | hunsent
  · exact .inl (List.mem_append_left _ hsubmitted)
  · exact hkept _ (List.mem_append_left _ hunsent)

/-- An action of the process keeps every event that it has fetched. -/
theorem Sound.act {a : Act π} (hsize : (size : ℤ) = max 1 batchSize) (h : Sound size g)
    (hstep : ConsumerGroup.act batchSize g a = some g') : Sound size g' := by
  cases a with
  | fetch p =>
    obtain ⟨-, hstep⟩ := Option.ite_none_right_eq_some.mp hstep
    obtain ⟨w, hadvance, rfl⟩ := Option.map_eq_some_iff.mp hstep
    obtain ⟨hsound, hevent⟩ := h.advance hsize hadvance
    exact ⟨hsound.events.passed (hevent _ (List.mem_singleton_self _)), hsound.batched⟩
  | other input =>
    cases input with
    | message event => cases hstep
    | _ =>
      obtain ⟨w, hadvance, rfl⟩ := Option.map_eq_some_iff.mp hstep
      exact (h.advance hsize hadvance).1

/-- Committing what has been fetched is safe if no covered event waits for its first bulk call. -/
theorem Sound.commit {p : π} {offset : ℕ} (h : Sound size g) (hoffset : offset ≤ g.next p)
    (hcovers : g.Covers (.commit p offset)) :
    Sound size { g with toOffsets := g.committing p offset } := by
  refine ⟨h.events.committing hoffset fun m hm hkept => ?_, h.batched⟩
  rcases hkept with hsubmitted | hunsent
  · exact hsubmitted
  · exact hcovers m hm hunsent

omit [DecidableEq π] in
/-- A new process begins behind events that have all been passed to a bulk call. -/
theorem Sound.takeOver (h : Sound size g)
    (hcovers : ∀ p, g.committed p = none → ∀ m < g.ends p, (p, m) ∈ g.process.submitted) :
    Sound size ⟨g.resumed, ConsumerGroup.takeOver g⟩ := by
  obtain ⟨b, -, -⟩ := h.batched
  refine ⟨h.events.resumed (fun _ hsubmitted => .inl hsubmitted)
    fun p hcommitted m hm => .inl (hcovers p hcommitted m hm), ?_⟩
  exact ⟨.empty (Nat.lt_of_le_of_lt (Nat.zero_le _) b.unsent_lt), [], rfl, rfl, fun _ => rfl⟩

/-- Actions that skip no event keep all events. -/
theorem Reached.sound (hsize : (size : ℤ) = max 1 batchSize) (h : Reached batchSize Covers g) :
    Sound size g := by
  refine h.rule (sound_init (by omega)) (fun g p ih => ⟨ih.events.produced p, ih.batched⟩)
    (fun g p offset hoffset hcovers ih => ih.commit hoffset hcovers)
    (fun g hcovers ih => ih.takeOver hcovers) fun g a g' hstep _ ih => ih.act hsize hstep

end ConsumerGroup

end ApiFirewall.Indexer
