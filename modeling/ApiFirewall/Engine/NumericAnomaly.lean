import ApiFirewall.Engine.Features
import Mathlib.Algebra.Order.Field.Basic

/-!
# When the numeric anomaly is positive

Where every numeric field has a range of two numbers, the anomaly of a signal is defined, and it
is positive exactly if some field lies outside its range.
-/

namespace ApiFirewall.Engine

open ApiFirewall.Wire

variable {K : Type} [Field K] [LinearOrder K]

/-- The larger of two doubles, the first of them at least zero, is at least zero. -/
theorem zero_le_max {x y : Double K} (hx : Double.le (.finite 0) x = true) :
    Double.le (.finite 0) (x.max y) = true := by
  unfold Double.max
  split
  · rename_i hlt
    cases x <;> cases y <;> simp [Double.le, Double.lt] at hx hlt ⊢
    exact hx.trans hlt.le
  · exact hx

/-- The larger of two doubles, the first of them at least zero, is positive if either of them is. -/
theorem zero_lt_max {x y : Double K} (hx : Double.le (.finite 0) x = true) :
    Double.lt (.finite 0) (x.max y) = true ↔
      Double.lt (.finite 0) x = true ∨ Double.lt (.finite 0) y = true := by
  unfold Double.max
  split
  · rename_i hlt
    refine ⟨.inr, fun h => h.elim (fun hpos => ?_) id⟩
    cases x <;> cases y <;> simp [Double.lt] at hpos hlt ⊢
    exact hpos.trans hlt
  · rename_i hlt
    refine ⟨.inl, fun h => h.elim id fun hpos => ?_⟩
    cases x <;> cases y <;> simp [Double.le, Double.lt] at hx hpos hlt ⊢
    exact hpos.trans_le hlt

variable [IsStrictOrderedRing K]

/-- The span by which deviations are measured is positive. -/
theorem exists_span (lo hi : K) : ∃ span : K, 0 < span ∧
    Double.max ((Double.finite hi).sub (.finite lo)) (.finite (1 / powerOfTen 6)) =
      .finite span := by
  have hunit : (0 : K) < 1 / powerOfTen 6 := by
    unfold powerOfTen
    positivity
  simp only [Double.max, Double.sub, Double.neg, Double.add, Double.lt, decide_eq_true_eq]
  split
  · exact ⟨_, hunit, rfl⟩
  · rename_i hle
    exact ⟨_, hunit.trans_le (not_lt.mp hle), rfl⟩

/-- The distance between two doubles, one of them a number and the other above it, is positive in
every unit. -/
theorem zero_lt_div_sub {x y : Double K} (h : Double.lt x y = true) {span : K} (hspan : 0 < span) :
    Double.lt (.finite 0) ((y.sub x).div (.finite span)) = true ∨ (x = .negInf ∧ y = .posInf) := by
  have hneg : ¬ span < 0 := hspan.not_gt
  cases x <;> cases y <;>
    simp [Double.lt, Double.sub, Double.neg, Double.add, Double.div, hneg] at h ⊢
  exact div_pos (by simpa using h) hspan

/-- A value deviates from a range of two numbers exactly if it lies outside. -/
theorem zero_lt_fieldDeviation (lo hi : K) (value : Double K) :
    Double.lt (.finite 0) (fieldDeviation (.finite lo) (.finite hi) value) = true ↔
      Double.lt value (.finite lo) = true ∨ Double.lt (.finite hi) value = true := by
  obtain ⟨span, hpos, hspan⟩ := exists_span lo hi
  unfold fieldDeviation
  rw [hspan]
  dsimp only
  split
  · rename_i hlow
    exact iff_of_true ((zero_lt_div_sub hlow hpos).resolve_right (by simp)) (.inl hlow)
  · rename_i hlow
    split
    · rename_i hhigh
      exact iff_of_true ((zero_lt_div_sub hhigh hpos).resolve_right (by simp)) (.inr hhigh)
    · rename_i hhigh
      exact iff_of_false (by simp [Double.lt]) (by simp [hlow, hhigh])

/-- The field lies outside its range of two numbers. -/
def OutOfRange (ranges : Dict (List (Double K))) (field : Text × Double K) : Prop :=
  ∃ lo hi, ranges.lookup field.1 = some [.finite lo, .finite hi] ∧
    (Double.lt field.2 (.finite lo) = true ∨ Double.lt (.finite hi) field.2 = true)

/-- Every field has a range of two numbers. -/
def Ranged (ranges : Dict (List (Double K))) (fields : List (Text × Double K)) : Prop :=
  ∀ field ∈ fields, ∃ lo hi, ranges.lookup field.1 = some [.finite lo, .finite hi]

/-- One more field makes the worst deviation positive exactly if it lies outside its range. -/
theorem worstDeviation_spec {ranges : Dict (List (Double K))} {field : Text × Double K}
    (hranged : ∃ lo hi, ranges.lookup field.1 = some [.finite lo, .finite hi]) {worst : Double K}
    (hworst : Double.le (.finite 0) worst = true) :
    ∃ w, worstDeviation ranges worst field = some w ∧ Double.le (.finite 0) w = true ∧
      (Double.lt (.finite 0) w = true ↔
        Double.lt (.finite 0) worst = true ∨ OutOfRange ranges field) := by
  obtain ⟨lo, hi, hlookup⟩ := hranged
  refine ⟨worst.max (fieldDeviation (.finite lo) (.finite hi) field.2), ?_, zero_le_max hworst, ?_⟩
  · simp [worstDeviation, hlookup]
  · rw [zero_lt_max hworst, zero_lt_fieldDeviation, OutOfRange]
    simp [hlookup]

/-- The worst deviation of ranged fields is positive exactly if it was before or one of them lies
outside its range. -/
theorem foldlM_worstDeviation {ranges : Dict (List (Double K))} {fields : List (Text × Double K)}
    (hranged : Ranged ranges fields) {worst : Double K}
    (hworst : Double.le (.finite 0) worst = true) :
    ∃ w, fields.foldlM (worstDeviation ranges) worst = some w ∧
      (Double.lt (.finite 0) w = true ↔
        Double.lt (.finite 0) worst = true ∨ ∃ field ∈ fields, OutOfRange ranges field) := by
  induction fields generalizing worst with
  | nil => exact ⟨worst, rfl, by simp⟩
  | cons field rest ih =>
    obtain ⟨hfield, hrest⟩ := List.forall_mem_cons.mp hranged
    obtain ⟨w, hstep, hw, hpos⟩ := worstDeviation_spec hfield hworst
    obtain ⟨w', hfold, hpos'⟩ := ih hrest hw
    refine ⟨w', ?_, ?_⟩
    · rw [List.foldlM_cons, hstep]
      exact hfold
    · rw [hpos', hpos, List.exists_mem_cons_iff, or_assoc]

omit [LinearOrder K] [IsStrictOrderedRing K] in
/-- The bound of the clip is a double. -/
theorem ofInt_ten : (Double.ofInt 10 : Double K) = .finite 10 := by
  have hnearest : Double.nearest 10 = 10 := by decide +kernel
  have hover : ¬ Double.overflow ≤ 10 := by decide +kernel
  have hunder : ¬ (10 : ℤ) ≤ -Double.overflow := by decide +kernel
  simp [Double.ofInt, hnearest, hover, hunder]

/-- Clipping at ten keeps a deviation positive. -/
theorem zero_lt_clip (x : Double K) : Double.lt (.finite 0) (x.min (.ofInt 10)) = true ↔
    Double.lt (.finite 0) x = true := by
  rw [ofInt_ten]
  unfold Double.min
  split
  · rename_i hlt
    refine iff_of_true (by simp [Double.lt]) ?_
    cases x <;> simp [Double.lt] at hlt ⊢
    exact (by norm_num : (0 : K) < 10).trans hlt
  · rfl

/-- Where every numeric field is ranged, the anomaly is positive exactly if one of them lies outside
its range. -/
theorem numericFieldAnomaly_spec {signal : RequestSignal K}
    (hranged : Ranged signal.baselineNumericRanges signal.numericFields.entries) :
    ∃ anomaly, numericFieldAnomaly signal = some anomaly ∧
      (Double.lt (.finite 0) anomaly = true ↔
        ∃ field ∈ signal.numericFields.entries, OutOfRange signal.baselineNumericRanges field) := by
  unfold numericFieldAnomaly
  split
  · rename_i hnone
    exact ⟨_, rfl, by simp [hnone, Double.lt]⟩
  · obtain ⟨worst, hfold, hpos⟩ := foldlM_worstDeviation hranged
      (show Double.le (.finite 0) (.finite (0 : K)) = true by simp [Double.le])
    refine ⟨_, by rw [hfold]; rfl, ?_⟩
    rw [zero_lt_clip, hpos]
    simp [Double.lt]

end ApiFirewall.Engine
