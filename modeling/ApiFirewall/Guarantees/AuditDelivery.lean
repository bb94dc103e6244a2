import ApiFirewall.Indexer.ConsumerGroup

/-!
# Delivery of audit events

As long as its process lives, the indexer passes every event that it fetches to exactly one bulk
call. Offsets are committed on a clock of their own, which pays no heed to the buffer: an event
that was committed while it waited is lost if the process is killed, and so is one that was on a
partition without a committed offset when the process came up. Where neither happens, every
committed event has been passed to a bulk call.
-/

namespace ApiFirewall.Guarantees

open ApiFirewall.Batching ApiFirewall.Indexer ApiFirewall.Indexer.AuditIndexer
open ApiFirewall.Indexer.ConsumerGroup

/-- For every sequence of outcomes, the bulk calls have between one and `batchSize` events, and they
and the events that wait make up the events that were fetched, in order; once fetching has ended
with an exception, the loop is left after one more bulk call at most, and then the buffer is empty
and the bulk calls alone make up what was fetched. -/
theorem indexer_conserves {α : Type} {batchSize : ℤ} (hsize : 1 ≤ batchSize)
    {inputs : List (Input α)} {s : AuditIndexer α} {bulks : List (List α)}
    (h : AuditIndexer.exec batchSize start inputs = some (s, bulks)) :
    (∀ bulk ∈ bulks, 1 ≤ bulk.length ∧ (bulk.length : ℤ) ≤ batchSize) ∧
      bulks.flatten ++ s.unsent = messages inputs ∧
      (.raised ∈ inputs → s.position = .stopped ∨ s.position = .closing ∧
        ∀ outcome, AuditIndexer.step batchSize s (.bulk outcome) = some (⟨.stopped, []⟩, [])) ∧
      (s.position = .stopped → s.buffer = [] ∧ bulks.flatten = messages inputs) := by
  obtain ⟨hcontents, hbuffer, hbounds⟩ := conserved_of_exec h
  refine ⟨fun bulk hbulk => ?_, hcontents, fun hraised => ?_, fun hstopped =>
    ⟨hbuffer hstopped, ?_⟩⟩
  · have := hbounds bulk hbulk
    omega
  · rcases Leaving.of_exec h (.inr hraised) with hclosing | hstopped
    · refine .inr ⟨hclosing, fun outcome => ?_⟩
      obtain ⟨position, buffer⟩ := s
      obtain rfl : position = .closing := hclosing
      rfl
    · exact .inl hstopped
  · obtain ⟨position, buffer⟩ := s
    obtain rfl : position = .stopped := hstopped
    simpa [unsent] using hcontents

/-- Three events leave in two bulk calls, the second one on the way out. -/
theorem threeEvents_conserved :
    [[1, 2], [3]].flatten = messages (α := ℕ) [.message 1, .message 2, .bulk .rejected, .message 3,
      .raised, .bulk .raised] := by
  have hexec : AuditIndexer.exec 2 start [.message 1, .message 2, .bulk .rejected, .message 3,
      .raised, .bulk .raised] = some (⟨.stopped, []⟩, [[1, 2], [3]]) := rfl
  exact ((indexer_conserves (by decide) hexec).2.2.2 rfl).2

section Commits

variable {π : Type} [DecidableEq π]

/-- In every run in which no commit covers an event that waits for its first bulk call, and no
process comes up without a committed offset on a partition with such events, every event below a
committed offset has been passed to a bulk call, and so has every event that any process has
fetched, unless it waits in the buffer. -/
theorem committed_submitted {batchSize : ℤ} {g : ConsumerGroup π} (h : Reached batchSize Covers g) :
    Safe g ∧ ∀ p, ∀ m < g.next p,
      (p, m) ∈ g.process.submitted ∨ (p, m) ∈ g.process.indexer.unsent := by
  obtain ⟨size, hsize⟩ := Int.eq_ofNat_of_zero_le (show 0 ≤ max 1 batchSize by omega)
  have hsound : Sound size g := Reached.sound hsize.symm h
  exact ⟨hsound.events.committed, hsound.events.fetched⟩

end Commits

/-- A process comes up, and one event is written and fetched. -/
def fetchOne : List (OffsetGroup.Action ℕ (Act ℕ)) := [.start, .produce 0, .act (.fetch 0)]

/-- The group after these actions. -/
def groupAfter (actions : List (OffsetGroup.Action ℕ (Act ℕ))) : ConsumerGroup ℕ :=
  (init.exec (member 200) actions).getD init

/-- The event is flushed, its offset is committed, and the process is replaced. -/
def flushedEvent : ConsumerGroup ℕ :=
  groupAfter (fetchOne ++ [.act (.other .timeout), .commit 0 1, .start])

/-- The committed event of that run has been passed to a bulk call. -/
theorem flushedEvent_submitted : (0, 0) ∈ flushedEvent.process.submitted := by
  have hreached : Reached 200 Covers flushedEvent := by
    refine .step (.step (.step (.step (.step (.step .init (?_ : Covers _ .start) rfl)
      (?_ : Covers _ (.produce 0)) rfl) (?_ : Covers _ (.act (.fetch 0))) rfl)
      (?_ : Covers _ (.act (.other .timeout))) rfl) (?_ : Covers _ (.commit 0 1)) rfl)
      (?_ : Covers _ .start) rfl
    · exact fun p _ m hm => absurd hm (Nat.not_lt_zero m)
    · trivial
    · trivial
    · trivial
    · exact fun m _ hm => absurd hm (List.not_mem_nil)
    · intro p hp m hm
      change Function.update (fun _ => none) 0 (some 1) p = none at hp
      change m < Function.update (fun _ => 0) 0 (0 + 1) p at hm
      by_cases hpartition : p = 0
      · simp [hpartition] at hp
      · simp [hpartition] at hm
  exact (committed_submitted hreached).1 0 1 rfl 0 Nat.zero_lt_one

/-- The offset of the event is committed while it waits, and the process is killed and replaced. -/
def lostEvent : ConsumerGroup ℕ := groupAfter (fetchOne ++ [.commit 0 1, .start])

/-- The event is below the committed offset and behind the new process, and has been passed to no
bulk call. -/
theorem lostEvent_unsubmitted :
    (Reached 200 (fun _ _ => True) lostEvent ∧ lostEvent.next 0 = 1 ∧
      lostEvent.process.indexer.unsent = [] ∧ (0, 0) ∉ lostEvent.process.submitted) ∧
      ¬ ∀ g : ConsumerGroup ℕ, Reached 200 (fun _ _ => True) g → Safe g := by
  have hreached : Reached 200 (fun _ _ => True) lostEvent :=
    OffsetGroup.reached_of_exec .init (fun _ _ _ => trivial)
      (show init.exec (member 200) (fetchOne ++ [.commit 0 1, .start]) = some lostEvent from rfl)
  exact ⟨⟨hreached, rfl, rfl, by decide⟩, fun hsafe =>
    absurd (hsafe lostEvent hreached 0 1 rfl 0 Nat.zero_lt_one) (by decide)⟩

end ApiFirewall.Guarantees
