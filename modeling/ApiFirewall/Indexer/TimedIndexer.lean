import ApiFirewall.Indexer.AuditIndexer
import Mathlib.Algebra.Order.Monoid.Defs
import Mathlib.Order.WithBot

/-!
# The audit indexer with a clock

Events arrive at increasing instants, finitely or infinitely many. The loop waits for the next one at
most for the flush interval, and each wait has an interval of its own. Bulk calls take no time. An
event that arrives at the very end of an interval may come before or after the timeout.

An event is the instant at which it was received, so the buffer shows how long its events have waited.
-/

namespace ApiFirewall.Indexer

/-- The settings of the loop. -/
structure FlushConfig (K : Type) [AddCommGroup K] [LinearOrder K] where
  interval : K
  batchSize : ℕ
  interval_pos : 0 < interval
  one_le_batchSize : 1 ≤ batchSize

/-- When the loop begins, and when each event arrives; events that never arrive do so at `⊤`. -/
structure Arrivals (K : Type) [LinearOrder K] where
  start : K
  time : ℕ → WithTop K
  start_le : (start : WithTop K) ≤ time 0
  le_next : ∀ n, time n ≤ time (n + 1)
  lt_next : ∀ n, time n ≠ ⊤ → time n < time (n + 1)

/-- Later events arrive later. -/
theorem Arrivals.time_le {K : Type} [LinearOrder K] (arrivals : Arrivals K) {m n : ℕ} (h : m ≤ n) :
    arrivals.time m ≤ arrivals.time n := by
  induction n, h using Nat.le_induction with
  | base => exact le_rfl
  | succ n _ ih => exact ih.trans (arrivals.le_next n)

/-- An event that arrives does so before every later one. -/
theorem Arrivals.time_lt {K : Type} [LinearOrder K] (arrivals : Arrivals K) {m n : ℕ} (h : m < n)
    (hm : arrivals.time m ≠ ⊤) : arrivals.time m < arrivals.time n :=
  (arrivals.lt_next m hm).trans_le (arrivals.time_le h)

/-- The state of the loop, the instant, the end of the current wait, and the number of events that
have been received. -/
structure TimedIndexer (K : Type) where
  now : K
  deadline : K
  next : ℕ
  indexer : AuditIndexer K
  deriving DecidableEq, Repr

namespace AuditIndexer

variable {α : Type} {size : ℕ} {s s' : AuditIndexer α} {issued : List (List α)}

/-- A received event joins the buffer, which is sent if that fills it. -/
theorem step_message {event : α}
    (h : s.step size (.message event) = some (s', issued)) :
    s.position = .polling ∧ s'.buffer = s.buffer ++ [event] ∧
      (s'.position = .polling ↔ s.buffer.length + 1 < size) := by
  obtain ⟨position, buffer⟩ := s
  cases position with
  | polling =>
    simp only [step, List.length_append, List.length_singleton] at h
    split at h
    · rename_i hfull
      cases buffer <;> obtain ⟨rfl, -⟩ := Prod.mk.inj (Option.some.inj h) <;>
        exact ⟨rfl, rfl, iff_of_false (by simp) (Nat.not_lt.mpr (Int.ofNat_le.mp hfull))⟩
    · rename_i hroom
      obtain ⟨rfl, -⟩ := Prod.mk.inj (Option.some.inj h)
      exact ⟨rfl, rfl, iff_of_true rfl (Nat.not_le.mp (mt Int.ofNat_le.mpr hroom))⟩
  | _ => simp [step] at h

/-- Any other outcome leaves an empty buffer, or the same buffer on its way out. -/
theorem step_other {input : Input α} (hinput : ∀ event, input ≠ .message event)
    (h : s.step size input = some (s', issued)) :
    s'.buffer = [] ∨ (s'.buffer = s.buffer ∧ s'.position ≠ .polling) := by
  obtain ⟨position, buffer⟩ := s
  cases position with
  | polling =>
    cases input with
    | message event => exact absurd rfl (hinput event)
    | timeout =>
      obtain ⟨rfl, -⟩ := Prod.mk.inj (Option.some.inj h)
      cases buffer with
      | nil => exact .inl rfl
      | cons event rest => exact .inr ⟨rfl, by simp⟩
    | raised =>
      obtain ⟨rfl, -⟩ := Prod.mk.inj (Option.some.inj h)
      cases buffer with
      | nil => exact .inl rfl
      | cons event rest => exact .inr ⟨rfl, by simp⟩
    | bulk outcome => simp [step] at h
  | flushing =>
    cases input with
    | bulk outcome =>
      cases outcome <;> obtain ⟨rfl, -⟩ := Prod.mk.inj (Option.some.inj h) <;> exact .inl rfl
    | _ => simp [step] at h
  | closing =>
    cases input with
    | bulk outcome =>
      obtain ⟨rfl, -⟩ := Prod.mk.inj (Option.some.inj h)
      exact .inl rfl
    | _ => simp [step] at h
  | stopped => simp [step] at h

end AuditIndexer

namespace TimedIndexer

/-- Time passes, an event is received, the wait ends without one, it ends with another exception, or a
bulk call ends. -/
inductive TimedAction (K : Type) where
  | wait (t : K)
  | fetch
  | timeout
  | raised
  | bulk (outcome : BulkOutcome)
  deriving DecidableEq, Repr

variable {K : Type} [AddCommGroup K] [LinearOrder K]

/-- The loop takes an outcome, and a wait that follows begins now. -/
def advance (config : FlushConfig K) (s : TimedIndexer K) (input : Input K) (next : ℕ) :
    Option (TimedIndexer K) :=
  (s.indexer.step config.batchSize input).map fun r =>
    { s with deadline := s.now + config.interval, next := next, indexer := r.1 }

/-- One action; `none` if it cannot happen. Time stops at the arrival of an event and at the end of
the wait. -/
def step (config : FlushConfig K) (arrivals : Arrivals K) (s : TimedIndexer K) :
    TimedAction K → Option (TimedIndexer K)
  | .wait t =>
    if s.indexer.position = .polling ∧ s.now ≤ t ∧ t ≤ s.deadline ∧
        (t : WithTop K) ≤ arrivals.time s.next then
      some { s with now := t }
    else none
  | .fetch =>
    if arrivals.time s.next = s.now then s.advance config (.message s.now) (s.next + 1) else none
  | .timeout => if s.deadline = s.now then s.advance config .timeout s.next else none
  | .raised => s.advance config .raised s.next
  | .bulk outcome => s.advance config (.bulk outcome) s.next

/-- The loop begins. -/
def start (config : FlushConfig K) (arrivals : Arrivals K) : TimedIndexer K where
  now := arrivals.start
  deadline := arrivals.start + config.interval
  next := 0
  indexer := .start

/-- The states that the loop can reach. -/
inductive Reached (config : FlushConfig K) (arrivals : Arrivals K) : TimedIndexer K → Prop where
  | start : Reached config arrivals (start config arrivals)
  | step {s s' : TimedIndexer K} {action : TimedAction K} (hreached : Reached config arrivals s)
      (hstep : s.step config arrivals action = some s') : Reached config arrivals s'

/-- Perform a list of actions. -/
def exec (config : FlushConfig K) (arrivals : Arrivals K) (s : TimedIndexer K) :
    List (TimedAction K) → Option (TimedIndexer K)
  | [] => some s
  | action :: actions => (s.step config arrivals action).bind fun s' => exec config arrivals s' actions

/-- Actions lead from reachable states to reachable states. -/
theorem Reached.exec {config : FlushConfig K} {arrivals : Arrivals K} {s s' : TimedIndexer K}
    {actions : List (TimedAction K)} (h : Reached config arrivals s)
    (hexec : s.exec config arrivals actions = some s') : Reached config arrivals s' := by
  induction actions generalizing s with
  | nil => exact Option.some.inj hexec ▸ h
  | cons action actions ih =>
    obtain ⟨s₁, hstep, hrest⟩ := Option.bind_eq_some_iff.mp hexec
    exact ih (h.step hstep) hrest

/-- The number of the oldest event in the buffer. -/
def first (s : TimedIndexer K) : ℕ := s.next - s.indexer.buffer.length

/-- What every reachable state has: the buffer holds the latest events in the order of their arrival,
with room for another one while the loop waits, and the current wait began with the last of them. -/
structure Sound (config : FlushConfig K) (arrivals : Arrivals K) (s : TimedIndexer K) : Prop where
  now_le : (s.now : WithTop K) ≤ arrivals.time s.next
  length_le : s.indexer.buffer.length ≤ s.next
  oldest : ∀ a later, s.indexer.buffer = a :: later →
    arrivals.time s.first = a ∧ ∀ b ∈ later, a < b
  received : ∀ a ∈ s.indexer.buffer, a ≤ s.now
  room : s.indexer.position = .polling → s.indexer.buffer.length < config.batchSize
  waits : s.indexer.position = .polling → ∀ before b, s.indexer.buffer = before ++ [b] →
    s.deadline = b + config.interval

variable {config : FlushConfig K} {arrivals : Arrivals K} {s s' : TimedIndexer K}

/-- Nothing has been received. -/
theorem sound_start : Sound config arrivals (start config arrivals) where
  now_le := arrivals.start_le
  length_le := Nat.le_refl 0
  oldest := by simp [start, AuditIndexer.start]
  received := by simp [start, AuditIndexer.start]
  room := fun _ => config.one_le_batchSize
  waits := by simp [start, AuditIndexer.start]

/-- An advance is a step of the loop at the same instant. -/
theorem advance_eq_some {input : Input K} {next : ℕ}
    (h : s.advance config input next = some s') : ∃ indexer issued,
      s.indexer.step config.batchSize input = some (indexer, issued) ∧
        s' = { s with deadline := s.now + config.interval, next := next, indexer := indexer } := by
  obtain ⟨⟨indexer, issued⟩, hstep, rfl⟩ := Option.map_eq_some_iff.mp h
  exact ⟨indexer, issued, hstep, rfl⟩

/-- Waiting ends before the next arrival and within the current wait. -/
theorem step_wait {t : K} (h : s.step config arrivals (.wait t) = some s') :
    s.indexer.position = .polling ∧ s.now ≤ t ∧ t ≤ s.deadline ∧
      (t : WithTop K) ≤ arrivals.time s.next ∧ s' = { s with now := t } := by
  simp only [step] at h
  split at h
  · rename_i hguard
    obtain ⟨hposition, hnow, hdeadline, harrival⟩ := hguard
    exact ⟨hposition, hnow, hdeadline, harrival, (Option.some.inj h).symm⟩
  · simp at h

/-- What receiving an event does: it joins the buffer when it arrives, and a wait begins if the batch
lacks further ones. -/
structure Fetches (config : FlushConfig K) (arrivals : Arrivals K) (s s' : TimedIndexer K) : Prop where
  polling : s.indexer.position = .polling
  arrives : arrivals.time s.next = s.now
  now_eq : s'.now = s.now
  deadline_eq : s'.deadline = s.now + config.interval
  next_eq : s'.next = s.next + 1
  buffer_eq : s'.indexer.buffer = s.indexer.buffer ++ [s.now]
  polling_iff : s'.indexer.position = .polling ↔ s.indexer.buffer.length + 1 < config.batchSize

/-- An event is received when it arrives. -/
theorem fetches_of_step (h : s.step config arrivals .fetch = some s') :
    Fetches config arrivals s s' := by
  simp only [step] at h
  split at h
  · rename_i harrives
    obtain ⟨indexer, issued, hindexer, rfl⟩ := advance_eq_some h
    obtain ⟨hpolling, hbuffer, hposition⟩ := AuditIndexer.step_message hindexer
    exact ⟨hpolling, harrives, rfl, rfl, rfl, hbuffer, hposition⟩
  · simp at h

/-- The buffer grows by one event. -/
theorem Fetches.length_eq (h : Fetches config arrivals s s') :
    s'.indexer.buffer.length = s.indexer.buffer.length + 1 := by
  rw [h.buffer_eq, List.length_append, List.length_singleton]

/-- Receiving an event does not change which one is the oldest. -/
theorem Fetches.first_eq (h : Fetches config arrivals s s') : s'.first = s.first := by
  rw [first, h.next_eq, h.length_eq]
  exact Nat.add_sub_add_right ..

/-- The loop can wait until the next arrival or the end of the current wait. -/
theorem Reached.wait {t : K} (h : Reached config arrivals s) (hposition : s.indexer.position = .polling)
    (hnow : s.now ≤ t) (hdeadline : t ≤ s.deadline)
    (harrival : (t : WithTop K) ≤ arrivals.time s.next) :
    Reached config arrivals { s with now := t } := by
  have hstep : s.step config arrivals (.wait t) = some { s with now := t } :=
    if_pos ⟨hposition, hnow, hdeadline, harrival⟩
  exact h.step hstep

/-- Any other action is an outcome that the loop takes without receiving an event. -/
theorem step_rest {action : TimedAction K} (hwait : ∀ t, action ≠ .wait t) (hfetch : action ≠ .fetch)
    (h : s.step config arrivals action = some s') :
    ∃ input, (∀ event, input ≠ .message event) ∧ s.advance config input s.next = some s' := by
  cases action with
  | wait t => exact absurd rfl (hwait t)
  | fetch => exact absurd rfl hfetch
  | timeout =>
    simp only [step] at h
    split at h
    · exact ⟨.timeout, by simp, h⟩
    · simp at h
  | raised => exact ⟨.raised, by simp, h⟩
  | bulk outcome => exact ⟨.bulk outcome, by simp, h⟩

/-- Receiving an event keeps the buffer in the order of arrival. -/
theorem Sound.fetch (h : Sound config arrivals s) (hfetches : Fetches config arrivals s s') :
    Sound config arrivals s' := by
  refine ⟨?_, ?_, ?_, ?_, ?_, ?_⟩
  · rw [hfetches.now_eq, hfetches.next_eq, ← hfetches.arrives]
    exact arrivals.le_next s.next
  · rw [hfetches.length_eq, hfetches.next_eq]
    exact Nat.succ_le_succ h.length_le
  · intro a later heq
    rw [hfetches.first_eq]
    rw [hfetches.buffer_eq] at heq
    cases hold : s.indexer.buffer with
    | nil =>
      rw [hold] at heq
      obtain ⟨rfl, rfl⟩ := List.cons.inj heq
      refine ⟨?_, by simp⟩
      rw [first, hold]
      exact hfetches.arrives
    | cons oldest rest =>
      rw [hold] at heq
      obtain ⟨rfl, rfl⟩ := List.cons.inj heq
      obtain ⟨htime, hlater⟩ := h.oldest _ _ hold
      refine ⟨htime, List.forall_mem_append.mpr ⟨hlater, List.forall_mem_singleton.mpr ?_⟩⟩
      have hlt : s.first < s.next := by
        have := h.length_le
        simp only [first, hold, List.length_cons] at this ⊢
        omega
      have := arrivals.time_lt hlt (by simp [htime])
      rwa [htime, hfetches.arrives, WithTop.coe_lt_coe] at this
  · rw [hfetches.buffer_eq, hfetches.now_eq]
    exact List.forall_mem_append.mpr ⟨h.received, List.forall_mem_singleton.mpr le_rfl⟩
  · intro hposition
    rw [hfetches.length_eq]
    exact hfetches.polling_iff.mp hposition
  · intro _ before b heq
    rw [hfetches.buffer_eq] at heq
    obtain ⟨-, hlast⟩ := List.append_inj' heq rfl
    rw [hfetches.deadline_eq, List.singleton_inj.mp hlast]

/-- Every action keeps the buffer in the order of arrival. -/
theorem Sound.step {action : TimedAction K} (h : Sound config arrivals s)
    (hstep : s.step config arrivals action = some s') : Sound config arrivals s' := by
  by_cases hwait : ∃ t, action = .wait t
  · obtain ⟨t, rfl⟩ := hwait
    obtain ⟨-, hnow, -, harrival, rfl⟩ := step_wait hstep
    exact ⟨harrival, h.length_le, h.oldest, fun a ha => (h.received a ha).trans hnow, h.room, h.waits⟩
  · by_cases hfetch : action = .fetch
    · exact h.fetch (fetches_of_step (hfetch ▸ hstep))
    · obtain ⟨input, hinput, hadvance⟩ := step_rest (fun t ht => hwait ⟨t, ht⟩) hfetch hstep
      obtain ⟨indexer, issued, hindexer, rfl⟩ := advance_eq_some hadvance
      rcases AuditIndexer.step_other hinput hindexer with hempty | ⟨hsame, hposition⟩
      · refine ⟨h.now_le, by simp [hempty], by simp [hempty], by simp [hempty], ?_, by simp [hempty]⟩
        intro _
        simp only [hempty]
        exact config.one_le_batchSize
      · refine ⟨h.now_le, by simpa only [hsame] using h.length_le, ?_,
          by simpa only [hsame] using h.received, fun hpolling => absurd hpolling hposition,
          fun hpolling => absurd hpolling hposition⟩
        simpa only [first, hsame] using h.oldest

/-- Every reachable state has it. -/
theorem sound_of_reached (h : Reached config arrivals s) : Sound config arrivals s := by
  induction h with
  | start => exact sound_start
  | step _ hstep ih => exact ih.step hstep

end TimedIndexer

end ApiFirewall.Indexer
