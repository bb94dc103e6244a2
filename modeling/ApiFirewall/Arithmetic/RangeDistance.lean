import Mathlib.Algebra.Order.Field.Basic
import Mathlib.Data.List.MinMax
import Mathlib.Order.Bounds.Basic

/-!
# Distances to ranges and the largest of a list

The distance of a number to a closed range is zero inside the range and grows linearly outside.
A deviation is the distance in units of the range's length, bounded below by a least unit so that
short ranges have one too. The largest element of a list is taken over zero, so the empty list has
one and the order of the list does not matter.
-/

namespace ApiFirewall.Arithmetic

section Largest

variable {α : Type*} [LinearOrder α] [Zero α]

/-- The largest element of a list, or zero if all are negative. -/
def largest (xs : List α) : α := xs.foldr max 0

@[simp] theorem largest_nil : largest ([] : List α) = 0 := rfl

@[simp] theorem largest_cons (x : α) (xs : List α) : largest (x :: xs) = max x (largest xs) := rfl

/-- A bound that is not negative bounds the largest element exactly if it bounds every element. -/
theorem largest_le_iff {xs : List α} {b : α} (hb : 0 ≤ b) : largest xs ≤ b ↔ ∀ x ∈ xs, x ≤ b := by
  induction xs with
  | nil => simpa using hb
  | cons x rest ih => rw [largest_cons, max_le_iff, ih, List.forall_mem_cons]

/-- The largest element is not negative. -/
theorem largest_nonneg (xs : List α) : 0 ≤ largest xs := by
  induction xs with
  | nil => exact le_rfl
  | cons x rest ih => exact ih.trans (le_max_right _ _)

/-- Every element is below the largest one. -/
theorem le_largest {xs : List α} {x : α} (h : x ∈ xs) : x ≤ largest xs :=
  (largest_le_iff (largest_nonneg xs)).mp le_rfl x h

/-- The largest element grows with the elements and with their number. -/
theorem largest_mono {xs ys : List α} (h : ∀ x ∈ xs, ∃ y ∈ ys, x ≤ y) :
    largest xs ≤ largest ys := by
  apply (largest_le_iff (largest_nonneg ys)).mpr
  intro x hx
  obtain ⟨y, hy, hle⟩ := h x hx
  exact hle.trans (le_largest hy)

/-- The largest element is one of the list or zero, and bounds them all. -/
theorem isGreatest_largest (xs : List α) : IsGreatest (insert 0 {x | x ∈ xs}) (largest xs) := by
  constructor
  · induction xs with
    | nil => exact .inl rfl
    | cons x rest ih =>
      rw [largest_cons]
      rcases max_choice x (largest rest) with hx | hrest
      · rw [hx]
        exact .inr (List.mem_cons_self ..)
      · rw [hrest]
        exact ih.imp id (List.mem_cons_of_mem x)
  · rintro x (rfl | hx)
    · exact largest_nonneg xs
    · exact le_largest hx

/-- An accumulated maximum is the larger of where it started and the largest element. -/
theorem foldl_max_eq (xs : List α) {b : α} (hb : 0 ≤ b) : xs.foldl max b = max b (largest xs) := by
  induction xs generalizing b with
  | nil => exact (max_eq_left hb).symm
  | cons x rest ih =>
    rw [List.foldl_cons, ih (hb.trans (le_max_left _ _)), largest_cons, max_assoc]

end Largest

section Distance

variable {K : Type*} [Field K] [LinearOrder K]

/-- How far a number lies outside a range. -/
def rangeDistance (lo hi x : K) : K := max 0 (max (lo - x) (x - hi))

/-- The distance in units of the range's length, or of a least unit if the range is shorter. -/
def rangeDeviation (unit lo hi x : K) : K := rangeDistance lo hi x / max (hi - lo) unit

variable {unit : K}

/-- The unit in which a deviation is measured is positive. -/
theorem unit_pos (hunit : 0 < unit) (lo hi : K) : 0 < max (hi - lo) unit :=
  hunit.trans_le (le_max_right _ _)

/-- Distances are not negative. -/
theorem rangeDistance_nonneg (lo hi x : K) : 0 ≤ rangeDistance lo hi x := le_max_left _ _

variable [IsStrictOrderedRing K]

/-- Exactly the numbers in the range have distance zero. -/
theorem rangeDistance_eq_zero {lo hi x : K} : rangeDistance lo hi x = 0 ↔ lo ≤ x ∧ x ≤ hi := by
  rw [rangeDistance, max_eq_left_iff, max_le_iff, sub_nonpos, sub_nonpos]

/-- A number below the range has the distance to its lower end. -/
theorem rangeDistance_of_lt {lo hi x : K} (hrange : lo ≤ hi) (h : x < lo) :
    rangeDistance lo hi x = lo - x := by
  have hlow : 0 ≤ lo - x := sub_nonneg.mpr h.le
  have hhigh : x - hi ≤ lo - x := (sub_nonpos.mpr (h.le.trans hrange)).trans hlow
  rw [rangeDistance, max_eq_left hhigh, max_eq_right hlow]

/-- A number above the range has the distance to its upper end. -/
theorem rangeDistance_of_gt {lo hi x : K} (hrange : lo ≤ hi) (h : hi < x) :
    rangeDistance lo hi x = x - hi := by
  have hhigh : 0 ≤ x - hi := sub_nonneg.mpr h.le
  have hlow : lo - x ≤ x - hi := (sub_nonpos.mpr (hrange.trans h.le)).trans hhigh
  rw [rangeDistance, max_eq_right hlow, max_eq_right hhigh]

/-- Distances to a part of a range are at least those to the range. -/
theorem rangeDistance_narrow {lo hi lo' hi' : K} (hlo : lo ≤ lo') (hhi : hi' ≤ hi) (x : K) :
    rangeDistance lo hi x ≤ rangeDistance lo' hi' x :=
  max_le_max le_rfl (max_le_max (sub_le_sub_right hlo x) (sub_le_sub_left hhi x))

/-- Deviations are not negative. -/
theorem rangeDeviation_nonneg (hunit : 0 < unit) (lo hi x : K) : 0 ≤ rangeDeviation unit lo hi x :=
  div_nonneg (rangeDistance_nonneg lo hi x) (unit_pos hunit lo hi).le

/-- Exactly the numbers in the range do not deviate from it. -/
theorem rangeDeviation_eq_zero (hunit : 0 < unit) {lo hi x : K} :
    rangeDeviation unit lo hi x = 0 ↔ lo ≤ x ∧ x ≤ hi := by
  rw [rangeDeviation, div_eq_zero_iff, rangeDistance_eq_zero]
  exact or_iff_left (unit_pos hunit lo hi).ne'

/-- A deviation grows with the distance and as the range narrows. -/
theorem rangeDeviation_mono (hunit : 0 < unit) {lo hi lo' hi' x x' : K} (hlo : lo ≤ lo')
    (hhi : hi' ≤ hi) (hx : rangeDistance lo hi x ≤ rangeDistance lo hi x') :
    rangeDeviation unit lo hi x ≤ rangeDeviation unit lo' hi' x' := by
  have hdistance : rangeDistance lo hi x ≤ rangeDistance lo' hi' x' :=
    hx.trans (rangeDistance_narrow hlo hhi x')
  have hspan : max (hi' - lo') unit ≤ max (hi - lo) unit :=
    max_le_max (sub_le_sub hhi hlo) le_rfl
  exact div_le_div₀ (rangeDistance_nonneg lo' hi' x') hdistance (unit_pos hunit lo' hi') hspan

end Distance

end ApiFirewall.Arithmetic
