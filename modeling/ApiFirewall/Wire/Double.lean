import Mathlib.Algebra.Order.Field.Basic
import Mathlib.Data.Int.Order.Basic
import Mathlib.Order.Basic

/-!
# Doubles over an exact field

A double is a number of an ordered field or one of the three special values. Arithmetic on
numbers is exact; comparisons and the propagation of special values follow the binary
format, in which every comparison with a NaN is false and the two zeros are one number.

Integers are rounded to the 53 bits of a significand, ties to even, where they become doubles.
Two conversions differ on integers beyond the largest double: one yields an infinity, the other
fails.
-/

namespace ApiFirewall.Wire

/-- A power of ten. -/
def powerOfTen {K : Type} [Field K] (n : ℕ) : K := ((10 ^ n : ℕ) : K)

/-- A number, an infinity, or not a number. -/
inductive Double (K : Type) where
  | finite (x : K)
  | posInf
  | negInf
  | nan
  deriving DecidableEq, Repr

namespace Double

variable {K : Type} [Field K] [LinearOrder K]

/-- Strictly less; false if either side is not a number. -/
def lt : Double K → Double K → Bool
  | finite x, finite y => decide (x < y)
  | finite _, posInf => true
  | negInf, finite _ => true
  | negInf, posInf => true
  | _, _ => false

/-- Less or equal; false if either side is not a number. -/
def le : Double K → Double K → Bool
  | finite x, finite y => decide (x ≤ y)
  | finite _, posInf => true
  | posInf, posInf => true
  | negInf, finite _ => true
  | negInf, posInf => true
  | negInf, negInf => true
  | _, _ => false

/-- The opposite double. -/
def neg : Double K → Double K
  | finite x => finite (-x)
  | posInf => negInf
  | negInf => posInf
  | nan => nan

/-- The sum; opposite infinities have none. -/
def add : Double K → Double K → Double K
  | finite x, finite y => finite (x + y)
  | nan, _ => nan
  | _, nan => nan
  | posInf, negInf => nan
  | negInf, posInf => nan
  | posInf, _ => posInf
  | _, posInf => posInf
  | negInf, _ => negInf
  | _, negInf => negInf

/-- The difference. -/
def sub (x y : Double K) : Double K := x.add y.neg

/-- The quotient by a divisor that is not zero. -/
def div : Double K → Double K → Double K
  | finite x, finite y => finite (x / y)
  | nan, _ => nan
  | _, nan => nan
  | finite _, _ => finite 0
  | posInf, finite y => if y < 0 then negInf else posInf
  | negInf, finite y => if y < 0 then posInf else negInf
  | _, _ => nan

/-- The first argument unless the second exceeds it. -/
def max (x y : Double K) : Double K := if lt x y then y else x

/-- The first argument unless the second is below it. -/
def min (x y : Double K) : Double K := if lt y x then y else x

/-- An integer's distance from zero, rounded to a significand of 53 bits with ties to even. -/
def roundSignificand (n : ℕ) : ℕ :=
  let unit := 2 ^ (n.log2 - 52)
  let q := n / unit
  let r := n % unit
  if 2 * r < unit ∨ (2 * r = unit ∧ q % 2 = 0) then q * unit else (q + 1) * unit

/-- The representable integer nearest to an integer. -/
def nearest (n : ℤ) : ℤ := n.sign * roundSignificand n.natAbs

/-- The first power of two beyond the finite doubles. -/
def overflow : ℤ := 2 ^ 1024

/-- The double nearest to an integer, an infinity if the integer is too large. -/
def ofInt (n : ℤ) : Double K :=
  if overflow ≤ nearest n then posInf
  else if nearest n ≤ -overflow then negInf
  else finite (nearest n)

/-- The double nearest to an integer, if the integer is not too large. -/
def ofInt? (n : ℤ) : Option (Double K) :=
  if overflow ≤ nearest n ∨ nearest n ≤ -overflow then none else some (finite (nearest n))

/-- Rounding keeps a positive distance positive. -/
theorem roundSignificand_pos {n : ℕ} (h : 0 < n) : 0 < roundSignificand n := by
  have hunit : 0 < 2 ^ (n.log2 - 52) := Nat.two_pow_pos _
  have hle : 2 ^ (n.log2 - 52) ≤ n :=
    (Nat.pow_le_pow_right (by decide) (Nat.sub_le _ _)).trans (Nat.log2_self_le h.ne')
  have hq : 0 < n / 2 ^ (n.log2 - 52) := Nat.div_pos hle hunit
  unfold roundSignificand
  dsimp only
  split
  · exact Nat.mul_pos hq hunit
  · exact Nat.mul_pos (Nat.succ_pos _) hunit

/-- Rounding keeps the sign. -/
theorem nearest_nonneg_iff {n : ℤ} : 0 ≤ nearest n ↔ 0 ≤ n := by
  constructor
  · intro h
    by_contra hneg
    have hpos : 0 < roundSignificand n.natAbs := roundSignificand_pos (by omega)
    rw [nearest, Int.sign_eq_neg_one_of_neg (by omega)] at h
    omega
  · intro h
    exact Int.mul_nonneg (Int.sign_nonneg_iff.mpr h) (Int.natCast_nonneg _)

/-- An integer converts to a double that is at least zero exactly if it is so itself. -/
theorem zero_le_ofInt [IsStrictOrderedRing K] {n : ℤ} :
    le (finite (0 : K)) (ofInt n) = true ↔ 0 ≤ n := by
  rw [← nearest_nonneg_iff]
  unfold ofInt
  have hover : 0 < overflow := Int.pow_pos (by decide)
  split
  · simp only [le, true_iff]
    omega
  · split
    · simp only [le, false_iff, Bool.false_eq_true]
      omega
    · simp [le]

end Double

end ApiFirewall.Wire
