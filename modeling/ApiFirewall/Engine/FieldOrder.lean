import ApiFirewall.Engine.Features
import ApiFirewall.Wire.DoubleOrder
import ApiFirewall.Wire.MemberOrder

/-!
# The order of the numeric fields, and their names

The numeric fields of a signal and their ranges come from maps whose order nobody has fixed. Feature
extraction does not depend on it: one pass of the loop over the fields may be exchanged with the next
one, whether they measure the field or raise. Neither does it depend on what the fields are called, as
long as different names stay different.
-/

namespace ApiFirewall.Engine

open ApiFirewall.Wire

variable {K : Type} [Field K] [LinearOrder K]

/-- The same signal, with its numeric fields and its ranges in another order. -/
structure RequestSignal.Reordered (signal signal' : RequestSignal K) : Prop where
  numericFields : signal'.numericFields.entries.Perm signal.numericFields.entries
  baselineNumericRanges :
    signal'.baselineNumericRanges.entries.Perm signal.baselineNumericRanges.entries
  others : signal' = { signal with numericFields := signal'.numericFields
                                   baselineNumericRanges := signal'.baselineNumericRanges }

/-- Two passes of the loop may be exchanged. -/
theorem worstDeviation_right_comm (ranges : Dict (List (Double K))) (worst : Double K)
    (field field' : Text × Double K) :
    ((worstDeviation ranges worst field).bind fun w => worstDeviation ranges w field') =
      (worstDeviation ranges worst field').bind fun w => worstDeviation ranges w field := by
  unfold worstDeviation
  split
  · split
    · rw [Option.bind_some, Option.bind_some, Double.max_right_comm]
    · rfl
  · split
    · rfl
    · rfl

/-- The loop passes the fields in any order. -/
theorem foldlM_worstDeviation_of_perm (ranges : Dict (List (Double K)))
    {fields fields' : List (Text × Double K)} (h : fields'.Perm fields) (worst : Double K) :
    fields'.foldlM (worstDeviation ranges) worst = fields.foldlM (worstDeviation ranges) worst := by
  rw [List.foldlM_eq_foldl, List.foldlM_eq_foldl]
  have hcomm : RightCommutative fun (w : Option (Double K)) field =>
      w >>= fun worst => worstDeviation ranges worst field := by
    refine ⟨fun w field field' => ?_⟩
    cases w with
    | none => rfl
    | some worst => exact worstDeviation_right_comm ranges worst field field'
  exact h.foldl_eq (pure worst)

/-- The anomaly does not depend on the order of the fields and of their ranges. -/
theorem numericFieldAnomaly_of_reordered {signal signal' : RequestSignal K}
    (h : signal.Reordered signal') : numericFieldAnomaly signal' = numericFieldAnomaly signal := by
  have hranges : worstDeviation signal'.baselineNumericRanges =
      worstDeviation signal.baselineNumericRanges := by
    unfold worstDeviation
    rw [Dict.lookup_of_perm h.baselineNumericRanges]
  have hempty : signal'.numericFields.entries = [] ↔ signal.numericFields.entries = [] := by
    constructor
    · intro hnil
      have hperm := h.numericFields
      rw [hnil] at hperm
      exact hperm.nil_eq.symm
    · intro hnil
      have hperm := h.numericFields
      rw [hnil] at hperm
      exact hperm.eq_nil
  unfold numericFieldAnomaly
  rw [hranges, foldlM_worstDeviation_of_perm _ h.numericFields]
  by_cases hnil : signal.numericFields.entries = []
  · rw [if_pos hnil, if_pos (hempty.mpr hnil)]
  · rw [if_neg hnil, if_neg fun h => hnil (hempty.mp h)]

/-- Of the numeric fields, feature extraction reads the anomaly only. -/
theorem extractFeatures_congr (log2 : K → K) {signal signal' : RequestSignal K}
    (hothers : signal' = { signal with numericFields := signal'.numericFields
                                       baselineNumericRanges := signal'.baselineNumericRanges })
    (hanomaly : numericFieldAnomaly signal' = numericFieldAnomaly signal) :
    extractFeatures log2 signal' = extractFeatures log2 signal := by
  generalize signal'.numericFields = fields at hothers
  generalize signal'.baselineNumericRanges = ranges at hothers
  subst hothers
  unfold extractFeatures
  rw [hanomaly]

/-- Feature extraction does not depend on the order of the fields and of their ranges. -/
theorem extractFeatures_of_reordered (log2 : K → K) {signal signal' : RequestSignal K}
    (h : signal.Reordered signal') : extractFeatures log2 signal' = extractFeatures log2 signal :=
  extractFeatures_congr log2 h.others (numericFieldAnomaly_of_reordered h)

/-- The names of the numeric fields of a signal and of their ranges. -/
def RequestSignal.names (signal : RequestSignal K) : List Text :=
  signal.numericFields.entries.map Prod.fst ++ signal.baselineNumericRanges.entries.map Prod.fst

/-- The same signal, with other names for its numeric fields. -/
structure RequestSignal.Renamed (f : Text → Text) (signal signal' : RequestSignal K) : Prop where
  numericFields :
    signal'.numericFields.entries = signal.numericFields.entries.map fun e => (f e.1, e.2)
  baselineNumericRanges : signal'.baselineNumericRanges.entries =
    signal.baselineNumericRanges.entries.map fun e => (f e.1, e.2)
  injective : ∀ name ∈ signal.names, ∀ name' ∈ signal.names, f name = f name' → name = name'
  others : signal' = { signal with numericFields := signal'.numericFields
                                   baselineNumericRanges := signal'.baselineNumericRanges }

/-- A field with another name is measured against the range that it had. -/
theorem worstDeviation_of_renamed {f : Text → Text} {signal signal' : RequestSignal K}
    (h : signal.Renamed f signal') (worst : Double K) {field : Text × Double K}
    (hfield : field ∈ signal.numericFields.entries) :
    worstDeviation signal'.baselineNumericRanges worst (f field.1, field.2) =
      worstDeviation signal.baselineNumericRanges worst field := by
  have hname : field.1 ∈ signal.names := List.mem_append_left _ (List.mem_map_of_mem hfield)
  have hlookup : signal'.baselineNumericRanges.lookup (f field.1) =
      signal.baselineNumericRanges.lookup field.1 :=
    Dict.lookup_of_renamed h.baselineNumericRanges fun name hmem =>
      h.injective name (List.mem_append_right _ hmem) field.1 hname
  rw [worstDeviation, worstDeviation, hlookup]

/-- The anomaly does not depend on the names of the fields. -/
theorem numericFieldAnomaly_of_renamed {f : Text → Text} {signal signal' : RequestSignal K}
    (h : signal.Renamed f signal') : numericFieldAnomaly signal' = numericFieldAnomaly signal := by
  have hfold : ∀ (fields : List (Text × Double K)) (worst : Double K),
      (∀ field ∈ fields, field ∈ signal.numericFields.entries) →
      (fields.map fun e => (f e.1, e.2)).foldlM (worstDeviation signal'.baselineNumericRanges) worst =
        fields.foldlM (worstDeviation signal.baselineNumericRanges) worst := by
    intro fields
    induction fields with
    | nil => exact fun _ _ => rfl
    | cons field fields ih =>
      intro worst hmem
      obtain ⟨hfield, hfields⟩ := List.forall_mem_cons.mp hmem
      rw [List.map_cons, List.foldlM_cons, List.foldlM_cons, worstDeviation_of_renamed h worst hfield]
      exact congrArg _ (funext fun worst' => ih worst' hfields)
  unfold numericFieldAnomaly
  rw [h.numericFields, hfold _ _ fun _ h => h]
  simp only [List.map_eq_nil_iff]

/-- Feature extraction does not depend on the names of the fields. -/
theorem extractFeatures_of_renamed (log2 : K → K) {f : Text → Text} {signal signal' : RequestSignal K}
    (h : signal.Renamed f signal') : extractFeatures log2 signal' = extractFeatures log2 signal :=
  extractFeatures_congr log2 h.others (numericFieldAnomaly_of_renamed h)

end ApiFirewall.Engine
