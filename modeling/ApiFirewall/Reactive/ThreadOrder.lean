import ApiFirewall.Reactive.Runtime
import Mathlib.Data.List.Perm.Basic

/-!
# The log thread by thread

The log of a run holds the calls of all threads in the order of time. Sorted by threads it holds the
same calls, so what the log tells about calls is what the threads tell about theirs.
-/

namespace ApiFirewall.Reactive

/-- A list sorted by numbers of its elements, up to a bound. -/
theorem perm_flatMap_filter {α : Type} (key : α → ℕ) (l : List α) (n : ℕ) :
    ((List.range n).flatMap fun i => l.filter fun a => key a = i).Perm
      (l.filter fun a => key a < n) := by
  induction n with
  | zero => simp
  | succ n ih =>
    rw [List.range_succ, List.flatMap_append, List.flatMap_singleton]
    have hsplit := List.filter_append_perm (fun a => key a < n) (l.filter fun a => key a < n + 1)
    rw [List.filter_filter, List.filter_filter] at hsplit
    have hbefore : (l.filter fun a => decide (key a < n) && decide (key a < n + 1)) =
        l.filter fun a => key a < n := by
      apply List.filter_congr
      intro a _
      rw [← Bool.decide_and, decide_eq_decide]
      omega
    have hlast : (l.filter fun a => !decide (key a < n) && decide (key a < n + 1)) =
        l.filter fun a => key a = n := by
      apply List.filter_congr
      intro a _
      rw [← decide_not, ← Bool.decide_and, decide_eq_decide]
      omega
    rw [hbefore, hlast] at hsplit
    exact (ih.append_right _).trans hsplit

variable {Op : Type} {Res : Op → Type} {σ ε L S β : Type}

/-- What a log tells about its calls is what its threads tell about theirs. -/
theorem perm_filterMap_log {log : List (Entry Op Res)} {n : ℕ} (h : ∀ e ∈ log, e.thread < n)
    (f : Event Op Res → Option β) :
    (log.filterMap fun e => f e.event).Perm
      ((List.range n).flatMap fun i => (eventsOf i log).filterMap f) := by
  have hall : (log.filter fun e => e.thread < n) = log :=
    List.filter_eq_self.mpr fun e he => by simpa using h e he
  have hsorted := (perm_flatMap_filter Entry.thread log n).filterMap fun e => f e.event
  rw [hall, List.filterMap_flatMap] at hsorted
  refine hsorted.symm.trans (.of_eq ?_)
  simp only [eventsOf, List.filterMap_map, Function.comp_def]

end ApiFirewall.Reactive
