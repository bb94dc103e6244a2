import ApiFirewall.Indexer.TimedIndexer
import Mathlib.Algebra.Order.Group.Int

/-!
# How long an audit event waits

The timer of the indexer starts anew with every event, so the flush interval bounds the silence after
the last event and not the age of the first. A single event that is followed by silence waits for
one interval. An event behind which others are fetched waits until its batch is full or until
nothing comes for an interval, and keeps to the interval only if its batch fills within it.
-/

namespace ApiFirewall.Guarantees

open ApiFirewall.Indexer ApiFirewall.Indexer.TimedIndexer

variable {K : Type} [AddCommGroup K] [LinearOrder K]

/-- No event in the buffer was received more than the flush interval ago. -/
def Fresh (config : FlushConfig K) (s : TimedIndexer K) : Prop :=
  ∀ a ∈ s.indexer.buffer, s.now ≤ a + config.interval

/-- Where events wait, the event that fills their batch arrives at most the flush interval after the
oldest of them. -/
def Fills (config : FlushConfig K) (arrivals : Arrivals K) (s : TimedIndexer K) : Prop :=
  ∀ a later, s.indexer.buffer = a :: later →
    arrivals.time (s.first + (config.batchSize - 1)) ≤ (a + config.interval : K)

/-- The next event is about to be received. -/
def Receives (arrivals : Arrivals K) (s : TimedIndexer K) : Prop :=
  s.indexer.position = .polling ∧ arrivals.time s.next = s.now

variable [IsOrderedAddMonoid K] {config : FlushConfig K} {arrivals : Arrivals K}
  {s s' : TimedIndexer K}

omit [IsOrderedAddMonoid K] in
/-- An event that is about to be received can be received. -/
theorem exists_fetch (h : Receives arrivals s) :
    ∃ s', s.step config arrivals .fetch = some s' := by
  have hsome : (s.indexer.step config.batchSize (.message s.now)).isSome = true :=
    AuditIndexer.step_isSome_iff.mpr (by rw [h.1]; trivial)
  obtain ⟨⟨indexer, issued⟩, hindexer⟩ := Option.isSome_iff_exists.mp hsome
  have hadvance : s.advance config (.message s.now) (s.next + 1) = some { s with
      deadline := s.now + config.interval, next := s.next + 1, indexer := indexer } := by
    rw [advance, hindexer]
    rfl
  exact ⟨_, (if_pos h.2).trans hadvance⟩

omit [AddCommGroup K] [IsOrderedAddMonoid K] in
/-- An instant after a bound that the loop can wait for, where it can wait beyond the bound at all. -/
theorem exists_wait {now bound deadline : K} {arrival : WithTop K} (hnow : (now : WithTop K) ≤ arrival)
    (hdeadline : now ≤ deadline) (hlate : bound < deadline)
    (harrival : ¬ arrival ≤ (bound : WithTop K)) :
    ∃ t, bound < t ∧ now ≤ t ∧ t ≤ deadline ∧ (t : WithTop K) ≤ arrival := by
  cases arrival with
  | top => exact ⟨deadline, hlate, hdeadline, le_rfl, le_top⟩
  | coe c =>
    rw [WithTop.coe_le_coe] at hnow harrival
    refine ⟨min c deadline, lt_min (not_le.mp harrival) hlate, le_min hnow hdeadline,
      min_le_right _ _, ?_⟩
    exact WithTop.coe_le_coe.mpr (min_le_left _ _)

/-- If no event ever waits too long, then an event behind which another one is received is in a batch
that fills in time. The induction is on the number of events that the batch still lacks. -/
theorem fills_of_fresh (hfresh : ∀ s, Reached config arrivals s → Fresh config s) (lacking : ℕ)
    (hreached : Reached config arrivals s) (hreceives : Receives arrivals s)
    (hsize : config.batchSize = s.indexer.buffer.length + 1 + lacking) : Fills config arrivals s := by
  induction lacking generalizing s with
  | zero =>
    intro a later hbuffer
    have hlength := (sound_of_reached hreached).length_le
    have hlast : s.first + (config.batchSize - 1) = s.next := by
      rw [hsize, first]
      omega
    rw [hlast, hreceives.2, WithTop.coe_le_coe]
    exact hfresh s hreached a (hbuffer ▸ List.mem_cons_self ..)
  | succ lacking ih =>
    intro a later hbuffer
    obtain ⟨s₁, hstep⟩ : ∃ s₁, s.step config arrivals .fetch = some s₁ := exists_fetch hreceives
    have hfetches : Fetches config arrivals s s₁ := fetches_of_step hstep
    have hreached₁ : Reached config arrivals s₁ := hreached.step hstep
    have hsound₁ : Sound config arrivals s₁ := sound_of_reached hreached₁
    have hposition : s₁.indexer.position = .polling := hfetches.polling_iff.mpr (by omega)
    have hoccupied : s₁.indexer.buffer = a :: (later ++ [s.now]) := by
      rw [hfetches.buffer_eq, hbuffer, List.cons_append]
    have hlate : a + config.interval < s₁.deadline := by
      rw [hfetches.deadline_eq]
      exact add_lt_add_left ((hsound₁.oldest a _ hoccupied).2 s.now (by simp)) _
    have hopen : s₁.now ≤ s₁.deadline := by
      rw [hfetches.deadline_eq, hfetches.now_eq]
      exact le_add_of_nonneg_right config.interval_pos.le
    by_cases harrival : arrivals.time s₁.next ≤ ((a + config.interval : K) : WithTop K)
    · -- the next event comes in time, and the batch lacks one event less at its arrival
      obtain ⟨c, hc⟩ := WithTop.ne_top_iff_exists.mp
        (ne_top_of_le_ne_top WithTop.coe_ne_top harrival)
      have hnow : s₁.now ≤ c := WithTop.coe_le_coe.mp (hc ▸ hsound₁.now_le)
      have hbound : c ≤ a + config.interval := WithTop.coe_le_coe.mp (hc ▸ harrival)
      have hreached₂ : Reached config arrivals { s₁ with now := c } :=
        hreached₁.wait hposition hnow (hbound.trans hlate.le) hc.le
      have hlacking : config.batchSize = s₁.indexer.buffer.length + 1 + lacking := by
        rw [hfetches.length_eq]
        omega
      have hfills : Fills config arrivals { s₁ with now := c } :=
        ih hreached₂ ⟨hposition, hc.symm⟩ hlacking
      rw [← hfetches.first_eq]
      exact hfills a _ hoccupied
    · -- nothing comes in time, and the loop waits beyond the bound
      obtain ⟨t, hbound, hnow, hdeadline, harrives⟩ :=
        exists_wait hsound₁.now_le hopen hlate harrival
      have hle : t ≤ a + config.interval :=
        hfresh _ (hreached₁.wait hposition hnow hdeadline harrives) a (by simp [hoccupied])
      exact absurd hle hbound.not_ge

/-- No event has waited too long, and where events wait behind the oldest one, their batch fills in
time. -/
structure Timely (config : FlushConfig K) (arrivals : Arrivals K) (s : TimedIndexer K) : Prop where
  fresh : Fresh config s
  fills : s.indexer.position = .polling → ∀ a later, s.indexer.buffer = a :: later → later ≠ [] →
    arrivals.time (s.first + (config.batchSize - 1)) ≤ (a + config.interval : K)

namespace Timely

omit [IsOrderedAddMonoid K] in
/-- Nothing has been received. -/
theorem start : Timely config arrivals (TimedIndexer.start config arrivals) where
  fresh := by simp [Fresh, TimedIndexer.start, AuditIndexer.start]
  fills := by simp [TimedIndexer.start, AuditIndexer.start]

/-- The loop does not wait beyond the interval of the oldest event: if it waits alone, the timer began
with it, and otherwise the event that fills the batch comes first. -/
theorem wait (h : Timely config arrivals s) (hsound : Sound config arrivals s) {t : K}
    (hstep : s.step config arrivals (.wait t) = some s') : Timely config arrivals s' := by
  obtain ⟨hposition, -, hdeadline, harrival, rfl⟩ := step_wait hstep
  refine ⟨?_, h.fills⟩
  intro a ha
  cases hbuffer : s.indexer.buffer with
  | nil =>
    simp only [hbuffer] at ha
    cases ha
  | cons oldest later =>
    have holdest : t ≤ oldest + config.interval := by
      by_cases hlater : later = []
      · rw [← hsound.waits hposition [] oldest (by rw [hbuffer, hlater]; rfl)]
        exact hdeadline
      · have hlt : s.next ≤ s.first + (config.batchSize - 1) := by
          have hroom := hsound.room hposition
          rw [first]
          omega
        exact WithTop.coe_le_coe.mp (harrival.trans ((arrivals.time_le hlt).trans
          (h.fills hposition oldest later hbuffer hlater)))
    have hle : oldest ≤ a := by
      simp only [hbuffer] at ha
      rcases List.mem_cons.mp ha with rfl | hmem
      · exact le_rfl
      · exact ((hsound.oldest oldest later hbuffer).2 a hmem).le
    exact holdest.trans (add_le_add_left hle _)

/-- An event is received in time, and its batch fills in time by assumption. -/
theorem fetch (h : Timely config arrivals s) (hfills : Fills config arrivals s)
    (hfetches : Fetches config arrivals s s') : Timely config arrivals s' := by
  constructor
  · intro a ha
    rw [hfetches.buffer_eq] at ha
    rw [hfetches.now_eq]
    rcases List.mem_append.mp ha with hold | hnew
    · exact h.fresh a hold
    · rw [List.mem_singleton.mp hnew]
      exact le_add_of_nonneg_right config.interval_pos.le
  · intro _ a later hoccupied hlater
    rw [hfetches.first_eq]
    rw [hfetches.buffer_eq] at hoccupied
    cases hold : s.indexer.buffer with
    | nil =>
      rw [hold] at hoccupied
      exact absurd (List.cons.inj hoccupied).2.symm hlater
    | cons oldest rest =>
      rw [hold] at hoccupied
      obtain ⟨rfl, -⟩ := List.cons.inj hoccupied
      exact hfills _ rest hold

/-- No action makes an event wait too long, if received events are in batches that fill in time. -/
theorem step {action : TimedAction K} (h : Timely config arrivals s)
    (hsound : Sound config arrivals s) (hfills : Receives arrivals s → Fills config arrivals s)
    (hstep : s.step config arrivals action = some s') : Timely config arrivals s' := by
  by_cases hwait : ∃ t, action = .wait t
  · obtain ⟨t, rfl⟩ := hwait
    exact h.wait hsound hstep
  · by_cases hfetch : action = .fetch
    · subst hfetch
      have hfetches : Fetches config arrivals s s' := fetches_of_step hstep
      exact h.fetch (hfills ⟨hfetches.polling, hfetches.arrives⟩) hfetches
    · obtain ⟨input, hinput, hadvance⟩ := step_rest (fun t ht => hwait ⟨t, ht⟩) hfetch hstep
      obtain ⟨indexer, issued, hindexer, rfl⟩ := advance_eq_some hadvance
      rcases AuditIndexer.step_other hinput hindexer with hempty | ⟨hsame, hposition⟩
      · exact ⟨by simp [Fresh, hempty], by simp [hempty]⟩
      · refine ⟨?_, fun hpolling => absurd hpolling hposition⟩
        intro a ha
        exact h.fresh a (hsame ▸ ha)

end Timely

/-- For all arrivals: no event ever waits in the buffer for more than the flush interval, if and only
if every event that is received behind waiting ones is in a batch that fills within the interval of
its oldest event. -/
theorem fresh_iff_fills (config : FlushConfig K) (arrivals : Arrivals K) :
    (∀ s, Reached config arrivals s → Fresh config s) ↔
      ∀ s, Reached config arrivals s → Receives arrivals s → Fills config arrivals s := by
  constructor
  · intro hfresh s hreached hreceives
    have hroom := (sound_of_reached hreached).room hreceives.1
    exact fills_of_fresh hfresh (config.batchSize - (s.indexer.buffer.length + 1)) hreached hreceives
      (by omega)
  · intro hfills s hreached
    suffices htimely : Timely config arrivals s from htimely.fresh
    induction hreached with
    | start => exact .start
    | @step s s' action hreached hstep ih =>
      exact ih.step (sound_of_reached hreached) (hfills s hreached) hstep

/-- The deployed settings, in seconds. -/
def deployedFlush : FlushConfig ℤ where
  interval := 2
  batchSize := 200
  interval_pos := by decide
  one_le_batchSize := by decide

/-- Two events, one second apart. -/
def twoArrivals : Arrivals ℤ where
  start := 0
  time
    | 0 => ((1 : ℤ) : WithTop ℤ)
    | 1 => ((2 : ℤ) : WithTop ℤ)
    | _ => ⊤
  start_le := WithTop.coe_le_coe.mpr (by decide)
  le_next
    | 0 => WithTop.coe_le_coe.mpr (by decide)
    | 1 => le_top
    | _ + 2 => le_top
  lt_next
    | 0, _ => WithTop.coe_lt_coe.mpr (by decide)
    | 1, _ => WithTop.coe_lt_top _
    | _ + 2, h => absurd rfl h

/-- The same interval with batches of two. -/
def pairedFlush : FlushConfig ℤ := { deployedFlush with batchSize := 2, one_le_batchSize := by decide }

/-- In batches of two, the first of two events is in time, still when the second one comes. -/
theorem fresh_twoArrivals :
    Fresh pairedFlush { now := 2, deadline := 3, next := 1, indexer := ⟨.polling, [1]⟩ } := by
  have hexec : (TimedIndexer.start pairedFlush twoArrivals).exec pairedFlush twoArrivals
      [.wait 1, .fetch, .wait 2] =
        some { now := 2, deadline := 3, next := 1, indexer := ⟨.polling, [1]⟩ } := by
    decide
  refine (fresh_iff_fills pairedFlush twoArrivals).mpr ?_ _ (Reached.start.exec hexec)
  intro s hreached hfetches a later hbuffer
  have harrives := hfetches.2
  have hsound := sound_of_reached hreached
  have hlength := hsound.length_le
  have holdest := (hsound.oldest a later hbuffer).1
  rw [first, hbuffer, List.length_cons] at *
  rcases hnext : s.next with _ | _ | n
  · omega
  · rw [hnext] at hlength holdest
    obtain rfl : later = [] := List.length_eq_zero_iff.mp (by omega)
    obtain rfl : 1 = a := WithTop.coe_injective holdest
    exact WithTop.coe_le_coe.mpr (by decide)
  · rw [hnext] at harrives
    cases harrives

/-- The first of two events is still in the buffer three seconds after it was received. -/
theorem not_fresh_twoArrivals :
    ¬ ∀ (config : FlushConfig ℤ) (arrivals : Arrivals ℤ) (s : TimedIndexer ℤ),
      Reached config arrivals s → Fresh config s := by
  intro h
  have hexec : (TimedIndexer.start deployedFlush twoArrivals).exec deployedFlush twoArrivals
      [.wait 1, .fetch, .wait 2, .fetch, .wait 4] =
        some { now := 4, deadline := 4, next := 2, indexer := ⟨.polling, [1, 2]⟩ } := by
    decide
  have hle := h deployedFlush twoArrivals _ (Reached.start.exec hexec) 1 (by simp)
  exact absurd hle (by decide)

end ApiFirewall.Guarantees
