import ApiFirewall.Wire.Double
import Mathlib.Tactic.Ring

/-!
# Rounding integers to doubles

Rounding to a significand divides by a power of two, rounds the quotient to the nearest integer with
ties to even, and multiplies again. The unit depends only on the length of the binary notation, so
rounding keeps the order within one length by the quotients, and across lengths because powers of two
are kept. The integers that round to a finite double are those below the midpoint between the largest
double and the first power of two beyond it.
-/

namespace ApiFirewall.Wire

namespace Double

/-- The integer nearest to a quotient, ties to even. -/
def roundQuotient (n unit : ℕ) : ℕ :=
  if 2 * (n % unit) < unit ∨ (2 * (n % unit) = unit ∧ n / unit % 2 = 0) then n / unit
  else n / unit + 1

/-- A rounded quotient is one of the two integers around the quotient. -/
theorem roundQuotient_mem (n unit : ℕ) :
    n / unit ≤ roundQuotient n unit ∧ roundQuotient n unit ≤ n / unit + 1 := by
  unfold roundQuotient
  split <;> omega

/-- Rounding a quotient keeps the order of the dividends. -/
theorem roundQuotient_mono {n m unit : ℕ} (h : n ≤ m) :
    roundQuotient n unit ≤ roundQuotient m unit := by
  rcases (Nat.div_le_div_right h : n / unit ≤ m / unit).lt_or_eq with hlt | heq
  · calc roundQuotient n unit ≤ n / unit + 1 := (roundQuotient_mem n unit).2
      _ ≤ m / unit := hlt
      _ ≤ roundQuotient m unit := (roundQuotient_mem m unit).1
  · have hmod : n % unit ≤ m % unit := by
      have hn := Nat.div_add_mod n unit
      have hm := Nat.div_add_mod m unit
      rw [heq] at hn
      omega
    unfold roundQuotient
    rw [heq]
    split <;> split <;> omega

/-- The weight of the last bit of a significand. -/
def lastBit (n : ℕ) : ℕ := 2 ^ (n.log2 - 52)

theorem lastBit_pos (n : ℕ) : 0 < lastBit n := Nat.two_pow_pos _

/-- Rounding to a significand rounds the number of last bits. -/
theorem roundSignificand_eq (n : ℕ) :
    roundSignificand n = roundQuotient n (lastBit n) * lastBit n := by
  unfold roundSignificand roundQuotient lastBit
  dsimp only
  split <;> rfl

/-- Integers of at most 53 bits are kept. -/
theorem roundSignificand_eq_self {n : ℕ} (h : n.log2 ≤ 52) : roundSignificand n = n := by
  have hunit : lastBit n = 1 := by
    rw [lastBit, Nat.sub_eq_zero_of_le h, pow_zero]
  rw [roundSignificand_eq, hunit]
  simp [roundQuotient, Nat.mod_one]

/-- Where the binary notation is longer than a significand, the leading power of two is a multiple of
the last bit. -/
theorem two_pow_log2 {n : ℕ} (h : 52 ≤ n.log2) : 2 ^ n.log2 = 2 ^ 52 * lastBit n := by
  rw [lastBit, ← pow_add, Nat.add_sub_cancel' h]

/-- A rounded integer is at least the leading power of two. -/
theorem two_pow_log2_le_roundSignificand {n : ℕ} (h : 0 < n) : 2 ^ n.log2 ≤ roundSignificand n := by
  have hle : 2 ^ n.log2 ≤ n := Nat.log2_self_le h.ne'
  rcases Nat.le_total n.log2 52 with hshort | hlong
  · rw [roundSignificand_eq_self hshort]
    exact hle
  · rw [roundSignificand_eq, two_pow_log2 hlong]
    apply Nat.mul_le_mul_right
    rw [two_pow_log2 hlong] at hle
    exact ((Nat.le_div_iff_mul_le (lastBit_pos n)).mpr hle).trans (roundQuotient_mem n _).1

/-- The number of last bits in an integer is less than the next power of two. -/
theorem div_lastBit_lt {n : ℕ} (h : 52 ≤ n.log2) : n / lastBit n < 2 ^ 53 := by
  apply Nat.div_lt_of_lt_mul
  calc n < 2 ^ (n.log2 + 1) := Nat.lt_log2_self
    _ = lastBit n * 2 ^ 53 := by rw [pow_succ, two_pow_log2 h]; ring

/-- A rounded integer is at most the next power of two. -/
theorem roundSignificand_le_two_pow (n : ℕ) : roundSignificand n ≤ 2 ^ (n.log2 + 1) := by
  rcases Nat.le_total n.log2 52 with hshort | hlong
  · rw [roundSignificand_eq_self hshort]
    exact Nat.lt_log2_self.le
  · rw [roundSignificand_eq, pow_succ, two_pow_log2 hlong]
    calc roundQuotient n (lastBit n) * lastBit n ≤ 2 ^ 53 * lastBit n :=
          Nat.mul_le_mul_right _ ((roundQuotient_mem n _).2.trans (div_lastBit_lt hlong))
      _ = 2 ^ 52 * lastBit n * 2 := by ring

/-- Rounding keeps the order. -/
theorem roundSignificand_mono : Monotone roundSignificand := by
  intro n m h
  rcases n.eq_zero_or_pos with rfl | hn
  · rw [roundSignificand_eq_self (by decide)]
    exact Nat.zero_le _
  · have hm : 0 < m := hn.trans_le h
    have hlog : n.log2 ≤ m.log2 := (Nat.le_log2 hm.ne').mpr ((Nat.log2_self_le hn.ne').trans h)
    rcases hlog.lt_or_eq with hlt | heq
    · calc roundSignificand n ≤ 2 ^ (n.log2 + 1) := roundSignificand_le_two_pow n
        _ ≤ 2 ^ m.log2 := Nat.pow_le_pow_right (by decide) hlt
        _ ≤ roundSignificand m := two_pow_log2_le_roundSignificand hm
    · have hunit : lastBit n = lastBit m := by rw [lastBit, heq, lastBit]
      rw [roundSignificand_eq, roundSignificand_eq, hunit]
      exact Nat.mul_le_mul_right _ (roundQuotient_mono h)

/-- A long integer rounds up to the next power of two exactly from half a last bit below it on. -/
theorem two_pow_le_roundSignificand_iff {n : ℕ} (h : 53 ≤ n.log2) :
    2 ^ (n.log2 + 1) ≤ roundSignificand n ↔ 2 ^ (n.log2 + 1) ≤ n + 2 ^ (n.log2 - 53) := by
  have hunit : lastBit n = 2 * 2 ^ (n.log2 - 53) := by
    rw [lastBit, ← pow_succ']
    congr 1
    omega
  have hpow : 2 ^ (n.log2 + 1) = 2 ^ 53 * lastBit n := by
    rw [pow_succ, two_pow_log2 (by omega)]
    ring
  have hq : n / lastBit n < 2 ^ 53 := div_lastBit_lt (by omega)
  have hr : n % lastBit n < lastBit n := Nat.mod_lt _ (lastBit_pos n)
  have hn : lastBit n * (n / lastBit n) + n % lastBit n = n := Nat.div_add_mod n _
  rw [roundSignificand_eq, hpow, Nat.mul_le_mul_right_iff (lastBit_pos n)]
  rcases (Nat.le_sub_one_of_lt hq).lt_or_eq with hlt | heq
  · -- the quotient is too small to reach the power of two, and so is the integer
    have hprod : lastBit n * (n / lastBit n + 2) ≤ lastBit n * 2 ^ 53 :=
      Nat.mul_le_mul_left _ (by omega)
    rw [Nat.mul_add] at hprod
    have hround := (roundQuotient_mem n (lastBit n)).2
    exact iff_of_false (by omega) (by omega)
  · have hround : 2 ^ 53 ≤ roundQuotient n (lastBit n) ↔ lastBit n ≤ 2 * (n % lastBit n) := by
      unfold roundQuotient
      rw [heq]
      split <;> omega
    have hprod : lastBit n * (2 ^ 53 - 1) + lastBit n = 2 ^ 53 * lastBit n := by ring
    rw [heq] at hn
    rw [hround]
    omega

/-- The integers beyond the midpoint above the largest double. -/
theorem overflow_le_roundSignificand_iff (n : ℕ) :
    2 ^ 1024 ≤ roundSignificand n ↔ 2 ^ 1024 ≤ n + 2 ^ 970 := by
  have hpow : 2 ^ 1024 = 2 ^ 1023 + 2 ^ 1023 := by rw [← two_mul, ← pow_succ']
  have hhalf : 2 ^ 970 ≤ 2 ^ 1023 := pow_le_pow_right₀ (by decide) (by decide)
  have hpos : 0 < 2 ^ 970 := pow_pos (by decide) _
  rcases lt_trichotomy n.log2 1023 with hlt | heq | hgt
  · have hexp : 2 ^ (n.log2 + 1) ≤ 2 ^ 1023 := pow_le_pow_right₀ (by decide) hlt
    have hround : roundSignificand n ≤ 2 ^ 1023 := (roundSignificand_le_two_pow n).trans hexp
    have hn : n < 2 ^ 1023 := Nat.lt_log2_self.trans_le hexp
    exact iff_of_false (by omega) (by omega)
  · have hiff := two_pow_le_roundSignificand_iff (n := n) (by omega)
    simp only [heq, Nat.reduceAdd, Nat.reduceSub] at hiff
    exact hiff
  · have hn : 0 < n := by
      rcases n.eq_zero_or_pos with rfl | hn
      · exact absurd hgt (by decide)
      · exact hn
    have hle : 2 ^ 1024 ≤ 2 ^ n.log2 := pow_le_pow_right₀ (by decide) hgt
    exact iff_of_true (hle.trans (two_pow_log2_le_roundSignificand hn))
      ((hle.trans (Nat.log2_self_le hn.ne')).trans (Nat.le_add_right _ _))

theorem nearest_natCast (n : ℕ) : nearest n = roundSignificand n := by
  rcases n.eq_zero_or_pos with rfl | hn
  · rfl
  · rw [nearest, Int.sign_eq_one_of_pos (by omega), one_mul, Int.natAbs_natCast]

theorem nearest_neg (n : ℤ) : nearest (-n) = -nearest n := by
  rw [nearest, nearest, Int.sign_neg, Int.natAbs_neg, neg_mul]

/-- The integer is closer to a finite double than to the power of two beyond all of them. -/
def Representable (n : ℤ) : Prop := |n| + 2 ^ 970 < 2 ^ 1024

instance (n : ℤ) : Decidable (Representable n) := inferInstanceAs (Decidable (_ < _))

theorem representable_neg {n : ℤ} : Representable (-n) ↔ Representable n := by
  rw [Representable, abs_neg, Representable]

theorem representable_natCast {n : ℕ} : Representable n ↔ n + 2 ^ 970 < 2 ^ 1024 := by
  rw [Representable, Nat.abs_cast]
  exact_mod_cast Iff.rfl

/-- The integers that overflow in neither direction. -/
theorem representable_iff (n : ℤ) :
    Representable n ↔ ¬ (overflow ≤ nearest n ∨ nearest n ≤ -overflow) := by
  have hover : overflow = ((2 ^ 1024 : ℕ) : ℤ) := by
    rw [overflow, Nat.cast_pow, Nat.cast_ofNat]
  have hnat : ∀ m : ℕ, Representable m ↔ nearest m < overflow := by
    intro m
    rw [representable_natCast, nearest_natCast, hover, Nat.cast_lt, ← not_le, ← not_le,
      overflow_le_roundSignificand_iff]
  have hnonneg : ∀ m : ℕ, -overflow < nearest m := by
    intro m
    rw [nearest_natCast, hover]
    have hpos : 0 < 2 ^ 1024 := pow_pos (by decide) _
    omega
  rcases Int.eq_nat_or_neg n with ⟨m, rfl | rfl⟩
  · rw [hnat, not_or, not_le, not_le]
    exact ⟨fun h => ⟨h, hnonneg m⟩, fun h => h.1⟩
  · rw [representable_neg, hnat, nearest_neg, not_or, not_le, not_le, neg_lt_neg_iff]
    exact ⟨fun h => ⟨neg_lt.mp (hnonneg m), h⟩, fun h => h.2⟩

/-- The conversion that fails on large integers is defined on those closer to a finite double. -/
theorem ofInt?_eq_some_iff {K : Type} [Field K] {n : ℤ} {x : Double K} :
    ofInt? n = some x ↔ Representable n ∧ x = .finite (nearest n) := by
  rw [representable_iff, ofInt?]
  split
  · rename_i h
    exact iff_of_false (by simp) (fun hand => hand.1 h)
  · rename_i h
    rw [Option.some.injEq, eq_comm]
    exact ⟨fun hx => ⟨h, hx⟩, fun hand => hand.2⟩

end Double

end ApiFirewall.Wire
