import ApiFirewall.Engine.ExactAnomaly

/-!
# The numeric anomaly law

Over exact numbers the anomaly of a signal is the largest deviation of a field from its range,
clipped at ten. It does not depend on the order of the fields, and it grows when fields are added,
when a value moves away from its range and when a range narrows. The three are one comparison: every
field of the first signal is a field of the second one, with a range inside its range there and a
value that is at least as far away from it.
-/

namespace ApiFirewall.Guarantees

open ApiFirewall.Wire
open ApiFirewall.Engine
open ApiFirewall.Arithmetic

section Definitions

variable {K : Type} [Field K] [LinearOrder K]

/-- Both signals have an exact anomaly, and the second one's is at least the first one's. -/
def AnomalyLe (signal other : RequestSignal K) : Prop :=
  ∃ anomaly anomaly', numericFieldAnomaly signal = some (.finite anomaly) ∧
    numericFieldAnomaly other = some (.finite anomaly') ∧ anomaly ≤ anomaly'

/-- The ranges of a signal's fields are the same in both signals. -/
def SameRanges (signal other : RequestSignal K) : Prop :=
  ∀ field ∈ signal.numericFields.entries,
    rangeOf other.baselineNumericRanges field.1 = rangeOf signal.baselineNumericRanges field.1

/-- The other signal has the signal's numeric fields in another order. -/
def Reordered (signal other : RequestSignal K) : Prop :=
  other.numericFields.entries.Perm signal.numericFields.entries ∧ SameRanges signal other

/-- The other signal has further numeric fields. -/
def FieldsAdded (signal other : RequestSignal K) : Prop :=
  (∀ field ∈ signal.numericFields.entries, field ∈ other.numericFields.entries) ∧
    SameRanges signal other

/-- The signal with another value in one numeric field. -/
def withValue (signal : RequestSignal K) (name : Text) (x : K) : RequestSignal K :=
  { signal with numericFields := signal.numericFields.insert name (.finite x) }

/-- The signal with another range for one numeric field. -/
def withRange (signal : RequestSignal K) (name : Text) (lo hi : K) : RequestSignal K :=
  { signal with
    baselineNumericRanges := signal.baselineNumericRanges.insert name [.finite lo, .finite hi] }

/-- A field is measured in another signal against a part of its range, at a value at least as far
away. -/
def Strained (ranges : Dict (List (Double K))) (field : Text × Double K)
    (ranges' : Dict (List (Double K))) (field' : Text × Double K) : Prop :=
  ∀ lo hi x, Measured ranges field lo hi x → ∃ lo' hi' x',
    Measured ranges' field' lo' hi' x' ∧ lo ≤ lo' ∧ hi' ≤ hi ∧
      rangeDistance lo hi x ≤ rangeDistance lo hi x'

/-- The distances of the signal's fields to their ranges, each divided by the length of the range or
by the least span. -/
def deviations (signal : RequestSignal K) : Set K :=
  {d | ∃ field ∈ signal.numericFields.entries, ∃ lo hi x,
    Measured signal.baselineNumericRanges field lo hi x ∧
      d = rangeDistance lo hi x / max (hi - lo) (1 / powerOfTen 6)}

end Definitions

variable {K : Type} [Field K] [LinearOrder K] [IsStrictOrderedRing K]

/-- A strained field deviates at least as much. -/
theorem Strained.exactDeviation_le {ranges ranges' : Dict (List (Double K))}
    {field field' : Text × Double K} (h : Strained ranges field ranges' field') {lo hi x : K}
    (hfield : Measured ranges field lo hi x) :
    exactDeviation ranges field ≤ exactDeviation ranges' field' := by
  obtain ⟨lo', hi', x', hfield', hlo, hhi, hdistance⟩ := h lo hi x hfield
  rw [hfield.exactDeviation_eq, hfield'.exactDeviation_eq]
  exact rangeDeviation_mono leastSpan_pos hlo hhi hdistance

/-- The anomaly grows where every field is strained in the other signal. -/
theorem anomalyLe_of_strained {signal other : RequestSignal K} (hexact : Exact signal)
    (hexact' : Exact other)
    (h : ∀ field ∈ signal.numericFields.entries, ∃ field' ∈ other.numericFields.entries,
      Strained signal.baselineNumericRanges field other.baselineNumericRanges field') :
    AnomalyLe signal other := by
  refine ⟨_, _, numericFieldAnomaly_exact hexact, numericFieldAnomaly_exact hexact', ?_⟩
  apply min_le_min le_rfl
  apply largest_mono
  intro deviation hdeviation
  obtain ⟨field, hfield, rfl⟩ := List.mem_map.mp hdeviation
  obtain ⟨field', hfield', hstrained⟩ := h field hfield
  obtain ⟨lo, hi, x, hmeasured⟩ := hexact field hfield
  exact ⟨_, List.mem_map_of_mem hfield', hstrained.exactDeviation_le hmeasured⟩

omit [IsStrictOrderedRing K] in
/-- A field is strained where its range and its value stay the same. -/
theorem strained_of_eq {ranges ranges' : Dict (List (Double K))} {field : Text × Double K}
    (h : rangeOf ranges' field.1 = rangeOf ranges field.1) :
    Strained ranges field ranges' field := by
  intro lo hi x hfield
  exact ⟨lo, hi, x, ⟨h.trans hfield.range, hfield.ordered, hfield.value⟩, le_rfl, le_rfl, le_rfl⟩

/-- Further fields do not lower the anomaly. -/
theorem anomalyLe_of_fieldsAdded {signal other : RequestSignal K} (hexact : Exact signal)
    (hexact' : Exact other) (h : FieldsAdded signal other) : AnomalyLe signal other := by
  apply anomalyLe_of_strained hexact hexact'
  intro field hfield
  exact ⟨field, h.1 field hfield, strained_of_eq (h.2 field hfield)⟩

/-- The order of the fields does not matter. -/
theorem anomaly_of_reordered {signal other : RequestSignal K} (hexact : Exact signal)
    (h : Reordered signal other) : numericFieldAnomaly other = numericFieldAnomaly signal := by
  have hdeviations : other.numericFields.entries.map (exactDeviation other.baselineNumericRanges) =
      other.numericFields.entries.map (exactDeviation signal.baselineNumericRanges) := by
    apply List.map_congr_left
    intro field hfield
    unfold exactDeviation
    rw [h.2 field (h.1.mem_iff.mp hfield)]
  have hexact' : Exact other := by
    intro field hfield
    obtain ⟨lo, hi, x, hmeasured⟩ := hexact field (h.1.mem_iff.mp hfield)
    exact ⟨lo, hi, x, (h.2 field (h.1.mem_iff.mp hfield)).trans hmeasured.range,
      hmeasured.ordered, hmeasured.value⟩
  rw [numericFieldAnomaly_exact hexact, numericFieldAnomaly_exact hexact', largestDeviation,
    hdeviations]
  congr 3
  apply le_antisymm
  · apply largest_mono
    intro deviation hdeviation
    exact ⟨deviation, (h.1.map _).mem_iff.mp hdeviation, le_rfl⟩
  · apply largest_mono
    intro deviation hdeviation
    exact ⟨deviation, (h.1.map _).mem_iff.mpr hdeviation, le_rfl⟩

omit [IsStrictOrderedRing K] in
/-- A field of a dictionary with one value set is that value or a field of the dictionary. -/
theorem mem_insert_iff {α : Type} {d : Dict α} {name : Text} {a : α} {field : Text × α} :
    field ∈ (d.insert name a).entries ↔
      if field.1 = name then field.2 = a else field ∈ d.entries := by
  rcases field with ⟨other, b⟩
  rw [← Dict.lookup_eq_some_iff, ← Dict.lookup_eq_some_iff]
  by_cases h : other = name
  · rw [if_pos h, h, Dict.lookup_insert_self, Option.some.injEq]
    exact eq_comm
  · rw [if_neg h, Dict.lookup_insert_of_ne d (Ne.symm h)]

/-- Moving a value away from its range does not lower the anomaly. -/
theorem anomalyLe_of_moved {signal : RequestSignal K} (hexact : Exact signal) {name : Text}
    {lo hi x x' : K} (hmem : (name, Double.finite x) ∈ signal.numericFields.entries)
    (hfield : Measured signal.baselineNumericRanges (name, .finite x) lo hi x)
    (hmoved : rangeDistance lo hi x ≤ rangeDistance lo hi x') :
    AnomalyLe signal (withValue signal name x') := by
  have hfield' : Measured signal.baselineNumericRanges (name, .finite x') lo hi x' :=
    ⟨hfield.range, hfield.ordered, rfl⟩
  apply anomalyLe_of_strained hexact
  · rintro ⟨other, value⟩ hother
    have hinsert := mem_insert_iff.mp hother
    by_cases h : other = name
    · rw [if_pos h] at hinsert
      obtain rfl : value = .finite x' := hinsert
      obtain rfl : other = name := h
      exact ⟨lo, hi, x', hfield'⟩
    · rw [if_neg h] at hinsert
      exact hexact _ hinsert
  · rintro ⟨other, value⟩ hother
    by_cases h : other = name
    · obtain rfl : other = name := h
      refine ⟨(other, .finite x'), mem_insert_iff.mpr (by simp), fun lo₁ hi₁ x₁ hmeasured => ?_⟩
      have hvalue : value = .finite x :=
        Option.some.inj ((Dict.lookup_eq_some_iff.mpr hother).symm.trans
          (Dict.lookup_eq_some_iff.mpr hmem))
      rw [hvalue] at hmeasured
      obtain ⟨rfl, rfl, rfl⟩ := hmeasured.unique hfield
      exact ⟨_, _, x', hfield', le_rfl, le_rfl, hmoved⟩
    · exact ⟨_, mem_insert_iff.mpr (by rwa [if_neg h]), strained_of_eq rfl⟩

/-- Narrowing the range of a field does not lower the anomaly. -/
theorem anomalyLe_of_narrowed {signal : RequestSignal K} (hexact : Exact signal) {name : Text}
    {lo hi lo' hi' x : K}
    (hfield : Measured signal.baselineNumericRanges (name, .finite x) lo hi x)
    (hlo : lo ≤ lo') (hordered : lo' ≤ hi') (hhi : hi' ≤ hi) :
    AnomalyLe signal (withRange signal name lo' hi') := by
  have hself : rangeOf (withRange signal name lo' hi').baselineNumericRanges name =
      [.finite lo', .finite hi'] := by
    rw [rangeOf, withRange, Dict.lookup_insert_self, Option.getD_some]
  have hother : ∀ other, other ≠ name → rangeOf (withRange signal name lo' hi').baselineNumericRanges
      other = rangeOf signal.baselineNumericRanges other := by
    intro other h
    rw [rangeOf, withRange, Dict.lookup_insert_of_ne _ (Ne.symm h), rangeOf]
  have hstrained : ∀ field, Strained signal.baselineNumericRanges field
      (withRange signal name lo' hi').baselineNumericRanges field := by
    rintro ⟨other, value⟩
    by_cases h : other = name
    · obtain rfl : other = name := h
      intro lo₁ hi₁ x₁ hmeasured
      have hrange := hmeasured.range.symm.trans hfield.range
      simp only [List.cons.injEq, Double.finite.injEq, and_true] at hrange
      obtain ⟨rfl, rfl⟩ := hrange
      exact ⟨lo', hi', x₁, ⟨hself, hordered, hmeasured.value⟩, hlo, hhi, le_rfl⟩
    · exact strained_of_eq (hother other h)
  apply anomalyLe_of_strained hexact
  · intro field hmem
    obtain ⟨lo₁, hi₁, x₁, hmeasured⟩ := hexact field hmem
    obtain ⟨lo₂, hi₂, x₂, hmeasured', -⟩ := hstrained field lo₁ hi₁ x₁ hmeasured
    exact ⟨lo₂, hi₂, x₂, hmeasured'⟩
  · exact fun field hmem => ⟨field, hmem, hstrained field⟩

omit [IsStrictOrderedRing K] in
/-- The deviations of an exact signal's fields, as a set. -/
theorem mem_deviations_iff {signal : RequestSignal K} (hexact : Exact signal) {d : K} :
    d ∈ deviations signal ↔
      d ∈ signal.numericFields.entries.map (exactDeviation signal.baselineNumericRanges) := by
  constructor
  · rintro ⟨field, hfield, lo, hi, x, hmeasured, rfl⟩
    exact List.mem_map.mpr ⟨field, hfield, hmeasured.exactDeviation_eq⟩
  · intro h
    obtain ⟨field, hfield, rfl⟩ := List.mem_map.mp h
    obtain ⟨lo, hi, x, hmeasured⟩ := hexact field hfield
    exact ⟨field, hfield, lo, hi, x, hmeasured, hmeasured.exactDeviation_eq⟩

/-- No field of an exact signal deviates exactly if each lies within its range. -/
theorem largestDeviation_eq_zero {signal : RequestSignal K} (hexact : Exact signal) :
    largestDeviation signal = 0 ↔ ∀ field ∈ signal.numericFields.entries, ∀ lo hi x,
      Measured signal.baselineNumericRanges field lo hi x → lo ≤ x ∧ x ≤ hi := by
  unfold largestDeviation
  rw [← (largest_nonneg _).ge_iff_eq', largest_le_iff le_rfl, List.forall_mem_map]
  constructor
  · intro h field hfield lo hi x hmeasured
    have hle := h field hfield
    rw [hmeasured.exactDeviation_eq] at hle
    exact (rangeDeviation_eq_zero leastSpan_pos).mp
      (hle.antisymm (rangeDeviation_nonneg leastSpan_pos lo hi x))
  · intro h field hfield
    obtain ⟨lo, hi, x, hmeasured⟩ := hexact field hfield
    rw [hmeasured.exactDeviation_eq]
    exact ((rangeDeviation_eq_zero leastSpan_pos).mpr (h field hfield lo hi x hmeasured)).le

/-- The anomaly of an exact signal: its range, its zeros, its value, and what it depends on and grows
with. -/
theorem numeric_anomaly_law {signal : RequestSignal K} (hexact : Exact signal) :
    (∃ anomaly, numericFieldAnomaly signal = some (.finite anomaly) ∧ 0 ≤ anomaly ∧ anomaly ≤ 10 ∧
      (anomaly = 0 ↔ ∀ field ∈ signal.numericFields.entries, ∀ lo hi x,
        Measured signal.baselineNumericRanges field lo hi x → lo ≤ x ∧ x ≤ hi) ∧
      ∃ worst, IsGreatest (insert 0 (deviations signal)) worst ∧ anomaly = min 10 worst) ∧
    (∀ other, Reordered signal other →
      numericFieldAnomaly other = numericFieldAnomaly signal) ∧
    (∀ other, Exact other → FieldsAdded signal other → AnomalyLe signal other) ∧
    (∀ name lo hi x x', (name, .finite x) ∈ signal.numericFields.entries →
      Measured signal.baselineNumericRanges (name, .finite x) lo hi x →
      rangeDistance lo hi x ≤ rangeDistance lo hi x' →
      AnomalyLe signal (withValue signal name x')) ∧
    (∀ name lo hi x lo' hi', (name, .finite x) ∈ signal.numericFields.entries →
      Measured signal.baselineNumericRanges (name, .finite x) lo hi x →
      lo ≤ lo' → lo' ≤ hi' → hi' ≤ hi → AnomalyLe signal (withRange signal name lo' hi')) := by
  have hnonneg : 0 ≤ largestDeviation signal := largest_nonneg _
  refine ⟨⟨_, numericFieldAnomaly_exact hexact, le_min (by norm_num) hnonneg, min_le_left _ _,
    ?_, largestDeviation signal, ?_, rfl⟩, ?_, ?_, ?_, ?_⟩
  · rw [← largestDeviation_eq_zero hexact]
    constructor
    · intro h
      rcases min_choice 10 (largestDeviation signal) with hten | hworst
      · exact absurd (hten.symm.trans h) (by norm_num)
      · exact hworst.symm.trans h
    · intro h
      rw [h]
      exact min_eq_right (by norm_num)
  · have hset : deviations signal = {d | d ∈ signal.numericFields.entries.map
        (exactDeviation signal.baselineNumericRanges)} := by
      ext d
      exact mem_deviations_iff hexact
    rw [hset]
    exact isGreatest_largest _
  · exact fun other h => anomaly_of_reordered hexact h
  · exact fun other hexact' h => anomalyLe_of_fieldsAdded hexact hexact' h
  · intro name lo hi x x' hmem hfield hmoved
    exact anomalyLe_of_moved hexact hmem hfield hmoved
  · intro name lo hi x lo' hi' _ hfield hlo hordered hhi
    exact anomalyLe_of_narrowed hexact hfield hlo hordered hhi

/-- A signal with a negative quantity and an unconfigured discount. -/
def quantitySignal : RequestSignal ℚ :=
  baseSignal ⟨2, by decide⟩ 2 ⟨[("qty", .finite (-15)), ("discount", .finite 2)], by decide⟩
    ⟨[("qty", [.finite 1, .finite 3])], by decide⟩

/-- The fields of the signal are exact, and the discount is measured against the unit interval. -/
theorem quantitySignal_exact : Exact quantitySignal := by
  intro field hfield
  rcases List.mem_cons.mp hfield with rfl | hfield
  · exact ⟨1, 3, -15, by decide, by norm_num, rfl⟩
  · obtain rfl := List.mem_singleton.mp hfield
    exact ⟨0, 1, 2, by decide, by norm_num, rfl⟩

/-- The anomaly of the signal obeys the law at further fields, moved values and narrowed ranges. -/
theorem numeric_anomaly_law_quantity :
    (∃ anomaly, numericFieldAnomaly quantitySignal = some (.finite anomaly) ∧ 0 ≤ anomaly ∧
      anomaly ≤ 10) ∧
    AnomalyLe quantitySignal (withValue quantitySignal "qty" (-16)) ∧
    AnomalyLe quantitySignal (withRange quantitySignal "qty" 2 3) := by
  have hlaw := numeric_anomaly_law quantitySignal_exact
  obtain ⟨⟨anomaly, hanomaly, hlow, hhigh, -⟩, -, -, hmoved, hnarrowed⟩ := hlaw
  have hmem : (("qty" : Text), Double.finite (-15 : ℚ)) ∈ quantitySignal.numericFields.entries :=
    List.mem_cons_self ..
  have hfield : Measured quantitySignal.baselineNumericRanges ("qty", .finite (-15 : ℚ)) 1 3 (-15) :=
    ⟨by decide, by norm_num, rfl⟩
  refine ⟨⟨anomaly, hanomaly, hlow, hhigh⟩, ?_, ?_⟩
  · exact hmoved "qty" 1 3 (-15) (-16) hmem hfield (by norm_num [rangeDistance])
  · exact hnarrowed "qty" 1 3 (-15) 2 3 hmem hfield (by norm_num) (by norm_num) le_rfl

end ApiFirewall.Guarantees
