import ApiFirewall.Arithmetic.RangeDistance
import ApiFirewall.Engine.NumericAnomaly

/-!
# The numeric anomaly of exact signals

Where every numeric field is an exact number measured against two exact numbers in order, the loop
over the fields computes the largest deviation of a field from its range, and the anomaly is that
deviation clipped at ten.
-/

namespace ApiFirewall.Engine

open ApiFirewall.Wire
open ApiFirewall.Arithmetic

section Definitions

variable {K : Type} [Field K] [LinearOrder K]

/-- The range a field is measured against, the unit interval if it has none of its own. -/
def rangeOf (ranges : Dict (List (Double K))) (name : Text) : List (Double K) :=
  (ranges.lookup name).getD [.finite 0, .finite 1]

/-- The least span by which deviations are measured. -/
def leastSpan : K := 1 / powerOfTen 6

/-- The field is an exact number, measured against two exact numbers in order. -/
structure Measured (ranges : Dict (List (Double K))) (field : Text × Double K) (lo hi x : K) :
    Prop where
  range : rangeOf ranges field.1 = [.finite lo, .finite hi]
  ordered : lo ≤ hi
  value : field.2 = .finite x

/-- Every numeric field of the signal is measured exactly. -/
def Exact (signal : RequestSignal K) : Prop :=
  ∀ field ∈ signal.numericFields.entries, ∃ lo hi x,
    Measured signal.baselineNumericRanges field lo hi x

/-- The deviation of a field that is measured exactly. -/
def exactDeviation (ranges : Dict (List (Double K))) (field : Text × Double K) : K :=
  match rangeOf ranges field.1, field.2 with
  | [.finite lo, .finite hi], .finite x => rangeDeviation leastSpan lo hi x
  | _, _ => 0

/-- The largest deviation of a field. -/
def largestDeviation (signal : RequestSignal K) : K :=
  largest (signal.numericFields.entries.map (exactDeviation signal.baselineNumericRanges))

variable {ranges : Dict (List (Double K))} {field : Text × Double K} {lo hi x : K}

theorem Measured.exactDeviation_eq (h : Measured ranges field lo hi x) :
    exactDeviation ranges field = rangeDeviation leastSpan lo hi x := by
  unfold exactDeviation
  rw [h.range, h.value]

/-- What a field is measured against is determined. -/
theorem Measured.unique {lo' hi' x' : K} (h : Measured ranges field lo hi x)
    (h' : Measured ranges field lo' hi' x') : lo = lo' ∧ hi = hi' ∧ x = x' := by
  have hrange := h.range.symm.trans h'.range
  have hvalue := h.value.symm.trans h'.value
  simp only [List.cons.injEq, Double.finite.injEq, and_true] at hrange hvalue
  exact ⟨hrange.1, hrange.2, hvalue⟩

end Definitions

variable {K : Type} [Field K] [LinearOrder K] [IsStrictOrderedRing K]

theorem leastSpan_pos : (0 : K) < leastSpan := by
  unfold leastSpan powerOfTen
  positivity

omit [Field K] [IsStrictOrderedRing K] in
/-- The larger of two numbers, as doubles. -/
theorem max_finite (x y : K) : (Double.finite x).max (.finite y) = .finite (max x y) := by
  unfold Double.max
  by_cases h : x < y
  · rw [if_pos (by simpa [Double.lt] using h), max_eq_right h.le]
  · rw [if_neg (by simpa [Double.lt] using h), max_eq_left (not_lt.mp h)]

/-- The deviation of one field, whichever of the three branches it takes. -/
theorem fieldDeviation_finite {lo hi : K} (hrange : lo ≤ hi) (x : K) :
    fieldDeviation (.finite lo) (.finite hi) (.finite x) =
      .finite (rangeDeviation leastSpan lo hi x) := by
  have hspan : ((Double.finite hi).sub (.finite lo)).max (.finite (1 / powerOfTen 6)) =
      .finite (max (hi - lo) leastSpan) := by
    rw [Double.sub, Double.neg, Double.add, ← sub_eq_add_neg, max_finite]
    rfl
  unfold fieldDeviation rangeDeviation
  rw [hspan]
  simp only [Double.lt, Double.sub, Double.neg, Double.add, Double.div, ← sub_eq_add_neg]
  by_cases hlow : x < lo
  · simp only [hlow, decide_true, if_true, rangeDistance_of_lt hrange hlow]
  · by_cases hhigh : hi < x
    · simp only [hlow, hhigh, decide_true, decide_false, Bool.false_eq_true, if_true, if_false,
        rangeDistance_of_gt hrange hhigh]
    · have hzero : rangeDistance lo hi x = 0 :=
        rangeDistance_eq_zero.mpr ⟨not_lt.mp hlow, not_lt.mp hhigh⟩
      simp only [hlow, hhigh, decide_false, Bool.false_eq_true, if_false, hzero, zero_div]

variable {ranges : Dict (List (Double K))} {field : Text × Double K} {lo hi x : K}

/-- One pass of the loop takes the larger of the deviations. -/
theorem worstDeviation_measured (h : Measured ranges field lo hi x) (worst : K) :
    worstDeviation ranges (.finite worst) field =
      some (.finite (max worst (exactDeviation ranges field))) := by
  have hrange := h.range
  unfold rangeOf at hrange
  unfold worstDeviation
  rw [hrange, h.value, h.exactDeviation_eq]
  dsimp only
  rw [fieldDeviation_finite h.ordered, max_finite]

/-- The loop accumulates the maximum of the deviations. -/
theorem foldlM_measured {fields : List (Text × Double K)}
    (h : ∀ field ∈ fields, ∃ lo hi x, Measured ranges field lo hi x) (worst : K) :
    fields.foldlM (worstDeviation ranges) (.finite worst) =
      some (.finite ((fields.map (exactDeviation ranges)).foldl max worst)) := by
  induction fields generalizing worst with
  | nil => rfl
  | cons field rest ih =>
    obtain ⟨⟨lo, hi, x, hfield⟩, hrest⟩ := List.forall_mem_cons.mp h
    rw [List.foldlM_cons, worstDeviation_measured hfield, List.map_cons, List.foldl_cons]
    exact ih hrest _

omit [IsStrictOrderedRing K] in
/-- Clipping a number at ten. -/
theorem min_ofInt_ten (x : K) : (Double.finite x).min (.ofInt 10) = .finite (min 10 x) := by
  rw [ofInt_ten]
  unfold Double.min
  by_cases h : 10 < x
  · rw [if_pos (by simpa [Double.lt] using h), min_eq_left h.le]
  · rw [if_neg (by simpa [Double.lt] using h), min_eq_right (not_lt.mp h)]

/-- The anomaly of an exact signal is its largest deviation, clipped at ten. -/
theorem numericFieldAnomaly_exact {signal : RequestSignal K} (h : Exact signal) :
    numericFieldAnomaly signal = some (.finite (min 10 (largestDeviation signal))) := by
  unfold numericFieldAnomaly largestDeviation
  split
  · rename_i hnone
    rw [hnone, List.map_nil, largest_nil, min_eq_right (by norm_num)]
  · rw [foldlM_measured h, foldl_max_eq _ le_rfl, max_eq_right (largest_nonneg _), Option.map_some,
      min_ofInt_ten]

end ApiFirewall.Engine
