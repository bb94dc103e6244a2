import Mathlib.Algebra.BigOperators.Field
import Mathlib.Analysis.SpecialFunctions.Log.Base
import Mathlib.Analysis.SpecialFunctions.Log.NegMulLog

/-!
# The entropy of the elements of a list

The share of an element is the fraction of the positions it fills. The entropy, to any base beyond
one, is that of the shares. By the inequality of Gibbs it is at most the logarithm of the number of
distinct elements, and it reaches that number only if all of them occur equally often. Whether it
exceeds the logarithm of a given number is a comparison of natural numbers.
-/

namespace ApiFirewall.Arithmetic

open Real

variable {α : Type*}

section Distribution

variable {s : Finset α} {p : α → ℝ}

/-- Scaling an argument by the number of summands, one element at a time. -/
theorem negMulLog_scale (d x : ℝ) : negMulLog (x * d) = d * negMulLog x - x * d * log d := by
  rw [negMulLog_mul]
  simp only [negMulLog]
  ring

/-- What the entropy of a distribution falls short of the logarithm of the number of its elements,
element by element. -/
theorem card_mul_gap (hsum : ∑ a ∈ s, p a = 1) :
    s.card * (log s.card - ∑ a ∈ s, negMulLog (p a)) =
      ∑ a ∈ s, (1 - p a * s.card - negMulLog (p a * s.card)) := by
  have hone : ∑ a ∈ s, (1 - p a * s.card) = 0 := by
    rw [Finset.sum_sub_distrib, ← Finset.sum_mul, hsum]
    simp
  have hscale : ∑ a ∈ s, negMulLog (p a * s.card) =
      s.card * ∑ a ∈ s, negMulLog (p a) - s.card * log s.card := by
    simp only [negMulLog_scale]
    rw [Finset.sum_sub_distrib, ← Finset.mul_sum, ← Finset.sum_mul, ← Finset.sum_mul, hsum, one_mul]
  rw [Finset.sum_sub_distrib, hone, hscale]
  ring

/-- The summands of the gap are not negative. -/
theorem gap_nonneg {x : ℝ} (h : 0 ≤ x) : 0 ≤ 1 - x - negMulLog x :=
  sub_nonneg.mpr (negMulLog_le_one_sub_self h)

/-- A summand of the gap vanishes only at one. -/
theorem gap_eq_zero {x : ℝ} (h : 0 ≤ x) : 1 - x - negMulLog x = 0 ↔ x = 1 := by
  constructor
  · intro hgap
    by_contra hx
    exact (sub_pos.mpr (negMulLog_lt_one_sub_self h hx)).ne' hgap
  · rintro rfl
    simp

/-- A distribution has an element. -/
theorem card_pos_of_sum (hsum : ∑ a ∈ s, p a = 1) : (0 : ℝ) < s.card := by
  rw [Nat.cast_pos, Finset.card_pos]
  apply Finset.nonempty_of_sum_ne_zero (f := p)
  rw [hsum]
  exact one_ne_zero

/-- The inequality of Gibbs against the uniform distribution. -/
theorem sum_negMulLog_le (hp : ∀ a ∈ s, 0 ≤ p a) (hsum : ∑ a ∈ s, p a = 1) :
    ∑ a ∈ s, negMulLog (p a) ≤ log s.card := by
  have hcard := card_pos_of_sum hsum
  have hgap : 0 ≤ s.card * (log s.card - ∑ a ∈ s, negMulLog (p a)) := by
    rw [card_mul_gap hsum]
    exact Finset.sum_nonneg fun a ha => gap_nonneg (mul_nonneg (hp a ha) hcard.le)
  exact sub_nonneg.mp (nonneg_of_mul_nonneg_right hgap hcard)

/-- Only the uniform distribution reaches the bound. -/
theorem sum_negMulLog_eq_iff (hp : ∀ a ∈ s, 0 ≤ p a) (hsum : ∑ a ∈ s, p a = 1) :
    ∑ a ∈ s, negMulLog (p a) = log s.card ↔ ∀ a ∈ s, p a * s.card = 1 := by
  have hcard := card_pos_of_sum hsum
  have hscaled : ∀ a ∈ s, 0 ≤ p a * s.card := fun a ha => mul_nonneg (hp a ha) hcard.le
  calc ∑ a ∈ s, negMulLog (p a) = log s.card
      ↔ s.card * (log s.card - ∑ a ∈ s, negMulLog (p a)) = 0 := by
        rw [mul_eq_zero, or_iff_right hcard.ne', sub_eq_zero, eq_comm]
    _ ↔ ∑ a ∈ s, (1 - p a * s.card - negMulLog (p a * s.card)) = 0 := by
        rw [card_mul_gap hsum]
    _ ↔ ∀ a ∈ s, 1 - p a * s.card - negMulLog (p a * s.card) = 0 :=
        Finset.sum_eq_zero_iff_of_nonneg fun a ha => gap_nonneg (hscaled a ha)
    _ ↔ ∀ a ∈ s, p a * s.card = 1 := forall₂_congr fun a ha => gap_eq_zero (hscaled a ha)

end Distribution

section Share

variable [DecidableEq α]

/-- The fraction of the positions of a list that an element fills. -/
noncomputable def share (xs : List α) (a : α) : ℝ := xs.count a / xs.length

/-- Shares are not negative. -/
theorem share_nonneg (xs : List α) (a : α) : 0 ≤ share xs a :=
  div_nonneg (Nat.cast_nonneg _) (Nat.cast_nonneg _)

/-- No share exceeds one. -/
theorem share_le_one (xs : List α) (a : α) : share xs a ≤ 1 :=
  div_le_one_of_le₀ (Nat.cast_le.mpr List.count_le_length) (Nat.cast_nonneg _)

/-- The shares of a list that is not empty add up to one. -/
theorem sum_share {xs : List α} (h : xs ≠ []) : ∑ a ∈ xs.toFinset, share xs a = 1 := by
  have hlength : (xs.length : ℝ) ≠ 0 := by simpa using h
  calc ∑ a ∈ xs.toFinset, share xs a = (∑ a ∈ xs.toFinset, (xs.count a : ℝ)) / xs.length :=
        (Finset.sum_div _ _ _).symm
    _ = xs.length / xs.length := by
        rw [← Nat.cast_sum, List.sum_toFinset_count_eq_length]
    _ = 1 := div_self hlength

/-- The order of a list does not matter for the shares. -/
theorem share_perm {xs ys : List α} (h : xs.Perm ys) : share xs = share ys := by
  funext a
  rw [share, share, h.count_eq, h.length_eq]

/-- Repeating a list leaves the shares. -/
theorem share_repeat (xs : List α) {k : ℕ} (h : 0 < k) :
    share (List.replicate k xs).flatten = share xs := by
  funext a
  have hk : (k : ℝ) ≠ 0 := Nat.cast_ne_zero.mpr h.ne'
  have hcount : (List.replicate k xs).flatten.count a = k * xs.count a := by
    simp [List.count_flatten]
  have hlength : (List.replicate k xs).flatten.length = k * xs.length := by
    simp [List.length_flatten]
  rw [share, share, hcount, hlength, Nat.cast_mul, Nat.cast_mul, mul_div_mul_left _ _ hk]

/-- All elements have the uniform share exactly if they occur equally often. -/
theorem share_mul_card_iff {xs : List α} (h : xs ≠ []) :
    (∀ a ∈ xs.toFinset, share xs a * xs.toFinset.card = 1) ↔
      ∀ a ∈ xs, ∀ b ∈ xs, xs.count a = xs.count b := by
  have hlength : (xs.length : ℝ) ≠ 0 := by simpa using h
  have hiff : ∀ a, share xs a * xs.toFinset.card = 1 ↔
      xs.count a * xs.toFinset.card = xs.length := by
    intro a
    rw [share, div_mul_eq_mul_div, div_eq_one_iff_eq hlength]
    exact_mod_cast Iff.rfl
  simp only [List.mem_toFinset, hiff]
  constructor
  · intro huniform a ha b hb
    have hcard : 0 < xs.toFinset.card := Finset.card_pos.mpr ⟨a, List.mem_toFinset.mpr ha⟩
    exact Nat.eq_of_mul_eq_mul_right hcard ((huniform a ha).trans (huniform b hb).symm)
  · intro hequal a ha
    calc xs.count a * xs.toFinset.card = ∑ b ∈ xs.toFinset, xs.count a := by
          rw [Finset.sum_const, smul_eq_mul, mul_comm]
      _ = ∑ b ∈ xs.toFinset, xs.count b :=
          Finset.sum_congr rfl fun b hb => hequal a ha b (List.mem_toFinset.mp hb)
      _ = xs.length := List.sum_toFinset_count_eq_length xs

end Share

section Entropy

variable [DecidableEq α]

/-- The entropy of the elements of a list, to a base. -/
noncomputable def entropy (b : ℝ) (xs : List α) : ℝ :=
  (∑ a ∈ xs.toFinset, negMulLog (share xs a)) / log b

variable {b : ℝ}

@[simp] theorem entropy_nil : entropy b ([] : List α) = 0 := by simp [entropy]

/-- Entropies are not negative. -/
theorem entropy_nonneg (hb : 1 < b) (xs : List α) : 0 ≤ entropy b xs := by
  apply div_nonneg _ (log_pos hb).le
  exact Finset.sum_nonneg fun a _ => negMulLog_nonneg (share_nonneg xs a) (share_le_one xs a)

/-- The entropy is at most the logarithm of the number of distinct elements. -/
theorem entropy_le_logb_card (hb : 1 < b) (xs : List α) : entropy b xs ≤ logb b xs.toFinset.card := by
  by_cases h : xs = []
  · subst h
    simp
  · exact div_le_div_of_nonneg_right
      (sum_negMulLog_le (fun a _ => share_nonneg xs a) (sum_share h)) (log_pos hb).le

/-- It reaches that bound exactly if all elements occur equally often. -/
theorem entropy_eq_logb_card_iff (hb : 1 < b) (xs : List α) :
    entropy b xs = logb b xs.toFinset.card ↔ ∀ a ∈ xs, ∀ a' ∈ xs, xs.count a = xs.count a' := by
  by_cases h : xs = []
  · subst h
    simp
  · rw [entropy, logb, div_left_inj' (log_pos hb).ne', ← share_mul_card_iff h]
    exact sum_negMulLog_eq_iff (fun a _ => share_nonneg xs a) (sum_share h)

/-- Two distinct elements leave each a share below one, so the entropy is positive. -/
theorem entropy_pos (hb : 1 < b) {xs : List α} {a a' : α} (ha : a ∈ xs) (ha' : a' ∈ xs)
    (hne : a ≠ a') : 0 < entropy b xs := by
  have hlength : (0 : ℝ) < xs.length := Nat.cast_pos.mpr (List.length_pos_of_mem ha)
  have hpos : 0 < share xs a := div_pos (Nat.cast_pos.mpr (List.count_pos_iff.mpr ha)) hlength
  have hlt : share xs a < 1 := by
    rw [share, div_lt_one hlength, Nat.cast_lt]
    apply lt_of_le_of_ne List.count_le_length
    intro hcount
    exact hne (List.count_eq_length.mp hcount a' ha')
  apply div_pos _ (log_pos hb)
  calc (0 : ℝ) < negMulLog (share xs a) := by
        rw [negMulLog, neg_mul, ← mul_neg]
        exact mul_pos hpos (neg_pos.mpr (log_neg hpos hlt))
    _ ≤ ∑ c ∈ xs.toFinset, negMulLog (share xs c) :=
        Finset.single_le_sum (f := fun c => negMulLog (share xs c))
          (fun c _ => negMulLog_nonneg (share_nonneg xs c) (share_le_one xs c))
          (List.mem_toFinset.mpr ha)

/-- The entropy vanishes exactly if at most one element occurs. -/
theorem entropy_eq_zero_iff (hb : 1 < b) (xs : List α) :
    entropy b xs = 0 ↔ xs.toFinset.card ≤ 1 := by
  constructor
  · intro hzero
    rw [Finset.card_le_one]
    intro a ha a' ha'
    by_contra hne
    exact (entropy_pos hb (List.mem_toFinset.mp ha) (List.mem_toFinset.mp ha') hne).ne' hzero
  · intro hcard
    have hlog : logb b (xs.toFinset.card : ℝ) ≤ 0 := by
      obtain hzero | hone := Nat.le_one_iff_eq_zero_or_eq_one.mp hcard
      · rw [hzero, Nat.cast_zero, logb_zero]
      · rw [hone, Nat.cast_one, logb_one]
    exact le_antisymm ((entropy_le_logb_card hb xs).trans hlog) (entropy_nonneg hb xs)

/-- The order of a list does not matter for its entropy. -/
theorem entropy_perm {xs ys : List α} (h : xs.Perm ys) : entropy b xs = entropy b ys := by
  rw [entropy, entropy, share_perm h, List.toFinset_eq_of_perm _ _ h]

/-- Repeating a list leaves its entropy. -/
theorem entropy_repeat (xs : List α) {k : ℕ} (h : 0 < k) :
    entropy b (List.replicate k xs).flatten = entropy b xs := by
  have hfinset : (List.replicate k xs).flatten.toFinset = xs.toFinset := by
    ext a
    simp [h.ne']
  rw [entropy, entropy, share_repeat xs h, hfinset]

/-- The entropy of a list by the logarithms of its counts, before it is divided by its length. -/
theorem length_mul_sum (xs : List α) :
    xs.length * ∑ a ∈ xs.toFinset, negMulLog (share xs a) =
      xs.length * log xs.length - ∑ a ∈ xs.toFinset, xs.count a * log (xs.count a) := by
  have hterm : ∀ a ∈ xs.toFinset, xs.length * negMulLog (share xs a) =
      xs.count a * log xs.length - xs.count a * log (xs.count a) := by
    intro a ha
    have hmem := List.mem_toFinset.mp ha
    have hcount : (xs.count a : ℝ) ≠ 0 := Nat.cast_ne_zero.mpr (List.count_pos_iff.mpr hmem).ne'
    have hlength : (xs.length : ℝ) ≠ 0 := by simpa using List.ne_nil_of_mem hmem
    rw [negMulLog, share, log_div hcount hlength]
    field_simp
    ring
  rw [Finset.mul_sum, Finset.sum_congr rfl hterm, Finset.sum_sub_distrib, ← Finset.sum_mul,
    ← Nat.cast_sum, List.sum_toFinset_count_eq_length]

/-- The product of the counts, each raised to itself. -/
def countPowers (xs : List α) : ℕ := ∏ a ∈ xs.toFinset, xs.count a ^ xs.count a

/-- The logarithm of that product. -/
theorem log_countPowers (xs : List α) :
    log (countPowers xs) = ∑ a ∈ xs.toFinset, xs.count a * log (xs.count a) := by
  rw [countPowers, Nat.cast_prod, log_prod]
  · apply Finset.sum_congr rfl
    intro a _
    rw [Nat.cast_pow, log_pow]
  · intro a _
    simp

/-- The product is positive. -/
theorem countPowers_pos (xs : List α) : 0 < countPowers xs := by
  apply Finset.prod_pos
  intro a ha
  exact pow_pos (List.count_pos_iff.mpr (List.mem_toFinset.mp ha)) _

/-- An entropy is at most the logarithm of a number exactly if an inequality between natural
numbers holds. -/
theorem entropy_le_logb_iff (hb : 1 < b) (xs : List α) {m : ℕ} (hm : 0 < m) :
    entropy b xs ≤ logb b m ↔ xs.length ^ xs.length ≤ m ^ xs.length * countPowers xs := by
  by_cases h : xs = []
  · subst h
    simpa [countPowers] using logb_nonneg hb (Nat.one_le_cast.mpr hm)
  · have hlength : (0 : ℝ) < xs.length := Nat.cast_pos.mpr (List.length_pos_iff.mpr h)
    have hpower : (0 : ℝ) < xs.length ^ xs.length := pow_pos hlength _
    have hm' : (m : ℝ) ≠ 0 := Nat.cast_ne_zero.mpr hm.ne'
    have hcounts : (countPowers xs : ℝ) ≠ 0 := Nat.cast_ne_zero.mpr (countPowers_pos xs).ne'
    have hright : (0 : ℝ) < m ^ xs.length * countPowers xs := by
      exact_mod_cast Nat.mul_pos (Nat.pow_pos hm) (countPowers_pos xs)
    calc entropy b xs ≤ logb b m
        ↔ ∑ a ∈ xs.toFinset, negMulLog (share xs a) ≤ log m := by
          rw [entropy, logb, div_le_div_iff_of_pos_right (log_pos hb)]
      _ ↔ xs.length * ∑ a ∈ xs.toFinset, negMulLog (share xs a) ≤ xs.length * log m :=
          (mul_le_mul_iff_right₀ hlength).symm
      _ ↔ xs.length * log xs.length ≤ xs.length * log m + log (countPowers xs) := by
          rw [length_mul_sum, log_countPowers, sub_le_iff_le_add]
      _ ↔ log ((xs.length : ℝ) ^ xs.length) ≤ log (m ^ xs.length * countPowers xs) := by
          rw [log_mul (pow_ne_zero _ hm') hcounts, log_pow, log_pow]
      _ ↔ (xs.length : ℝ) ^ xs.length ≤ m ^ xs.length * countPowers xs :=
          log_le_log_iff hpower hright
      _ ↔ xs.length ^ xs.length ≤ m ^ xs.length * countPowers xs := by exact_mod_cast Iff.rfl

end Entropy

end ApiFirewall.Arithmetic
