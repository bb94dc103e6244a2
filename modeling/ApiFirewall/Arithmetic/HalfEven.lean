import Mathlib.Algebra.Order.Floor.Ring
import Mathlib.Data.Rat.Floor
import Mathlib.Tactic.Linarith
import Mathlib.Tactic.Ring

/-!
# Rounding to the nearest integer, ties to even

An integer bounds a rounded number from below exactly if the number is past the midpoint under the
integer, or at the midpoint where the integer is even. Monotonicity, the fixed points and the bounds
of rounded numbers are read off this characterization.
-/

namespace ApiFirewall.Arithmetic

variable {K : Type*} [Field K] [LinearOrder K] [FloorRing K]

/-- The nearest integer, the even one of two that are equally near. -/
def roundHalfEven (x : K) : ℤ :=
  if x - ⌊x⌋ < ⌊x⌋ + 1 - x then ⌊x⌋
  else if ⌊x⌋ + 1 - x < x - ⌊x⌋ then ⌊x⌋ + 1
  else ⌊x⌋ + ⌊x⌋ % 2

variable [IsStrictOrderedRing K]

omit [IsStrictOrderedRing K] in
/-- A rounded number is one of the two integers around it. -/
theorem roundHalfEven_mem (x : K) : ⌊x⌋ ≤ roundHalfEven x ∧ roundHalfEven x ≤ ⌊x⌋ + 1 := by
  unfold roundHalfEven
  split
  · omega
  · split <;> omega

omit [IsStrictOrderedRing K] in
/-- Rounding goes up past the midpoint, and at the midpoint above an odd integer. -/
theorem roundHalfEven_eq_succ_iff (x : K) : roundHalfEven x = ⌊x⌋ + 1 ↔
    ⌊x⌋ + 1 - x < x - ⌊x⌋ ∨ (x - ⌊x⌋ = ⌊x⌋ + 1 - x ∧ ⌊x⌋ % 2 = 1) := by
  unfold roundHalfEven
  rcases lt_trichotomy (x - ⌊x⌋) (⌊x⌋ + 1 - x) with hlt | heq | hgt
  · rw [if_pos hlt]
    exact iff_of_false (by omega) (by rintro (h | h); exacts [h.not_gt hlt, hlt.ne h.1])
  · rw [if_neg heq.not_lt, if_neg heq.not_gt]
    simp only [heq, lt_irrefl, false_or, true_and]
    omega
  · rw [if_neg hgt.not_gt, if_pos hgt]
    exact iff_of_true rfl (.inl hgt)

/-- An integer is below a rounded number exactly if its lower midpoint is, ties going to even. -/
theorem le_roundHalfEven_iff {n : ℤ} {x : K} :
    n ≤ roundHalfEven x ↔ (n : K) - 1 / 2 < x ∨ ((n : K) - 1 / 2 = x ∧ n % 2 = 0) := by
  obtain ⟨hlow, hhigh⟩ := roundHalfEven_mem x
  have hfloor : (⌊x⌋ : K) ≤ x := Int.floor_le x
  have hceil : x < ⌊x⌋ + 1 := Int.lt_floor_add_one x
  rcases lt_trichotomy n (⌊x⌋ + 1) with hlt | heq | hgt
  · have hn : (n : K) ≤ ⌊x⌋ := by exact_mod_cast Int.lt_add_one_iff.mp hlt
    exact iff_of_true (by omega) (.inl (by linarith))
  · have hn : (n : K) = ⌊x⌋ + 1 := by exact_mod_cast heq
    have hsucc : n ≤ roundHalfEven x ↔ roundHalfEven x = ⌊x⌋ + 1 := by omega
    rw [hsucc, roundHalfEven_eq_succ_iff, hn]
    apply or_congr
    · constructor <;> intro h <;> linarith
    · apply and_congr
      · constructor <;> intro h <;> linarith
      · omega
  · have hn : (⌊x⌋ : K) + 2 ≤ n := by exact_mod_cast (by omega : ⌊x⌋ + 2 ≤ n)
    refine iff_of_false (by omega) ?_
    rintro (h | ⟨h, -⟩) <;> linarith

/-- An even integer is below a rounded number exactly from its lower midpoint on. -/
theorem le_roundHalfEven_iff_of_even {n : ℤ} (hn : n % 2 = 0) {x : K} :
    n ≤ roundHalfEven x ↔ (n : K) - 1 / 2 ≤ x := by
  rw [le_roundHalfEven_iff, le_iff_lt_or_eq]
  simp only [hn, and_true]

/-- Rounding keeps the order. -/
theorem roundHalfEven_mono {x y : K} (hxy : x ≤ y) : roundHalfEven x ≤ roundHalfEven y := by
  apply le_roundHalfEven_iff.mpr
  rcases le_roundHalfEven_iff.mp (le_refl (roundHalfEven x)) with h | ⟨h, heven⟩
  · exact .inl (h.trans_le hxy)
  · rcases hxy.lt_or_eq with hlt | rfl
    · exact .inl (h.trans_lt hlt)
    · exact .inr ⟨h, heven⟩

/-- Integers are rounded to themselves. -/
theorem roundHalfEven_intCast (n : ℤ) : roundHalfEven (n : K) = n := by
  have hnear : (n : K) - ⌊(n : K)⌋ < ⌊(n : K)⌋ + 1 - n := by
    rw [Int.floor_intCast]
    linarith
  rw [roundHalfEven, if_pos hnear, Int.floor_intCast]

end ApiFirewall.Arithmetic
