import ApiFirewall.Engine.ScoreEndpoint
import ApiFirewall.Wire.Rounding

/-!
# When feature extraction raises

Validation bounds the numbers of a signal one by one. Extraction needs more: it unpacks the range of
every numeric field into two numbers, and it converts three integers to doubles. On validated
signals these are the only two ways to fail, and both can happen.
-/

namespace ApiFirewall.Guarantees

open ApiFirewall.Wire
open ApiFirewall.Engine

variable {K : Type} [Field K] [LinearOrder K]

/-- Every numeric field that has a range has one of exactly two numbers. -/
def Unpackable (signal : RequestSignal K) : Prop :=
  ∀ field ∈ signal.numericFields.entries, ∀ range,
    signal.baselineNumericRanges.lookup field.1 = some range → range.length = 2

/-- The integers that extraction converts are not beyond the doubles. -/
structure Convertible (signal : RequestSignal K) : Prop where
  distinctEndpoints : Double.Representable signal.distinctEndpoints60s.val
  failedAuthStreak : Double.Representable signal.failedAuthStreak.val
  paramDeviation : Double.Representable |signal.paramCount - signal.baselineParamCount|

/-- A field is measured exactly if its range, where it has one, is two numbers. -/
theorem worstDeviation_isSome_iff {ranges : Dict (List (Double K))} {worst : Double K}
    {field : Text × Double K} : (worstDeviation ranges worst field).isSome = true ↔
      ∀ range, ranges.lookup field.1 = some range → range.length = 2 := by
  unfold worstDeviation
  cases hlookup : ranges.lookup field.1 with
  | none => simp
  | some range =>
    match range with
    | [] => simp
    | [_] => simp
    | [_, _] => simp
    | _ :: _ :: _ :: _ => simp

/-- The loop over the fields completes exactly if every field is measured, whatever was
accumulated. -/
theorem foldlM_isSome_iff {ranges : Dict (List (Double K))} {fields : List (Text × Double K)}
    {worst : Double K} : (fields.foldlM (worstDeviation ranges) worst).isSome = true ↔
      ∀ field ∈ fields, ∀ range, ranges.lookup field.1 = some range → range.length = 2 := by
  induction fields generalizing worst with
  | nil => exact iff_of_true rfl (by simp)
  | cons field rest ih =>
    rw [List.foldlM_cons, List.forall_mem_cons]
    cases hstep : worstDeviation ranges worst field with
    | none =>
      refine iff_of_false (by simp) fun h => ?_
      have hsome : (worstDeviation ranges worst field).isSome = true :=
        worstDeviation_isSome_iff.mpr h.1
      rw [hstep] at hsome
      exact Bool.false_ne_true hsome
    | some w =>
      have hfield := worstDeviation_isSome_iff.mp (hstep ▸ rfl :
        (worstDeviation ranges worst field).isSome = true)
      change (rest.foldlM (worstDeviation ranges) w).isSome = true ↔ _
      rw [ih]
      exact (and_iff_right hfield).symm

/-- The anomaly is defined exactly if every range can be unpacked. -/
theorem numericFieldAnomaly_isSome_iff {signal : RequestSignal K} :
    (numericFieldAnomaly signal).isSome = true ↔ Unpackable signal := by
  unfold numericFieldAnomaly Unpackable
  split
  · rename_i hnone
    exact iff_of_true rfl (by simp [hnone])
  · rw [Option.isSome_map, foldlM_isSome_iff]

omit [LinearOrder K] in
/-- The conversion of an integer is defined exactly if it is representable. -/
theorem exists_ofInt?_iff {n : ℤ} :
    (∃ x : Double K, Double.ofInt? n = some x) ↔ Double.Representable n := by
  constructor
  · rintro ⟨x, hx⟩
    exact (Double.ofInt?_eq_some_iff.mp hx).1
  · intro h
    exact ⟨_, Double.ofInt?_eq_some_iff.mpr ⟨h, rfl⟩⟩

/-- Flags convert. -/
theorem representable_flag (flag : FlagInt) : Double.Representable flag.val := by
  have hone : (1 : ℤ) + 2 ^ 970 < 2 ^ 1024 := by decide +kernel
  have hle : |flag.val| ≤ 1 := abs_le.mpr ⟨by linarith [flag.property.1], flag.property.2⟩
  exact (add_le_add_left hle _).trans_lt hone

/-- Extraction raises nothing exactly if every range of a numeric field is two numbers and the integers
it converts are not beyond the doubles. -/
theorem exists_extractFeatures_iff (log2 : K → K) (signal : RequestSignal K) :
    (∃ vector, extractFeatures log2 signal = some vector) ↔
      Unpackable signal ∧ Convertible signal := by
  constructor
  · rintro ⟨vector, hvector⟩
    obtain ⟨_, _, _, anomaly, _, _, hdistinct, hstreak, hparam, hanomaly, -, -, -⟩ :=
      extractFeatures_eq_some_iff.mp hvector
    refine ⟨numericFieldAnomaly_isSome_iff.mp (Option.isSome_iff_exists.mpr ⟨_, hanomaly⟩), ?_⟩
    exact { distinctEndpoints := exists_ofInt?_iff.mp ⟨_, hdistinct⟩
            failedAuthStreak := exists_ofInt?_iff.mp ⟨_, hstreak⟩
            paramDeviation := exists_ofInt?_iff.mp ⟨_, hparam⟩ }
  · rintro ⟨hranges, hints⟩
    obtain ⟨distinctEndpoints, hdistinct⟩ := (exists_ofInt?_iff (K := K)).mpr hints.distinctEndpoints
    obtain ⟨failedAuthStreak, hstreak⟩ := (exists_ofInt?_iff (K := K)).mpr hints.failedAuthStreak
    obtain ⟨paramDeviation, hparam⟩ := (exists_ofInt?_iff (K := K)).mpr hints.paramDeviation
    obtain ⟨anomaly, hanomaly⟩ :=
      Option.isSome_iff_exists.mp (numericFieldAnomaly_isSome_iff.mpr hranges)
    obtain ⟨knownBadUa, hbad⟩ :=
      (exists_ofInt?_iff (K := K)).mpr (representable_flag signal.knownBadUaFlag)
    obtain ⟨offHours, hoff⟩ :=
      (exists_ofInt?_iff (K := K)).mpr (representable_flag signal.offHoursFlag)
    exact ⟨_, extractFeatures_eq_some_iff.mpr ⟨_, _, _, _, _, _, hdistinct, hstreak, hparam,
      hanomaly, hbad, hoff, rfl⟩⟩

/-- Where extraction raises, the endpoint answers a valid signal with an error of its own, and the
consumer skips the message. -/
theorem raised_of_not_defined [FloorRing K] {config : EngineConfig K} {report : Json K → Json K}
    {body : Json K} {signal : RequestSignal K}
    (hvalid : RequestSignal.validate config.texts body = some signal)
    (h : ¬ (Unpackable signal ∧ Convertible signal)) :
    (ScoreEndpoint.score config report true body).status = 500 ∧
      KafkaConsumer.scoreSignal config body = none := by
  have hnone : extractFeatures config.log2 signal = none := by
    cases hvector : extractFeatures config.log2 signal with
    | none => rfl
    | some vector => exact absurd ((exists_extractFeatures_iff _ _).mp ⟨vector, hvector⟩) h
  constructor
  · simp [ScoreEndpoint.score, hvalid, hnone]
  · simp [KafkaConsumer.scoreSignal, hvalid, hnone]

/-- On validated signals extraction yields a vector with one component for each feature exactly if
every range of a numeric field is two numbers and the integers it converts are not beyond the
doubles. -/
theorem extractFeatures_total_iff (log2 : K → K) (signal : RequestSignal K) :
    (∃ vector, extractFeatures log2 signal = some vector ∧ vector.length = featureOrder.length) ↔
      Unpackable signal ∧ Convertible signal := by
  rw [← exists_extractFeatures_iff log2 signal]
  constructor
  · rintro ⟨vector, hvector, -⟩
    exact ⟨vector, hvector⟩
  · rintro ⟨vector, hvector⟩
    refine ⟨vector, hvector, ?_⟩
    obtain ⟨_, _, _, _, _, _, -, -, -, -, -, -, rfl⟩ := extractFeatures_eq_some_iff.mp hvector
    rfl

/-- A validated signal whose quantity has a range of one number. -/
def oneSidedSignal : RequestSignal ℚ :=
  baseSignal ⟨3, by decide⟩ 1 ⟨[("qty", .finite 2)], by decide⟩ ⟨[("qty", [.finite 1])], by decide⟩

/-- Extraction fails on a validated signal. -/
theorem extractFeatures_oneSided :
    ¬ ∀ (log2 : ℚ → ℚ) (signal : RequestSignal ℚ), ∃ vector,
      extractFeatures log2 signal = some vector ∧ vector.length = featureOrder.length := by
  intro h
  obtain ⟨vector, hvector, -⟩ := h id oneSidedSignal
  have hranges := ((exists_extractFeatures_iff _ _).mp ⟨vector, hvector⟩).1
  have hlength := hranges ("qty", .finite 2) (List.mem_cons_self ..) [.finite 1] rfl
  exact absurd hlength (by decide)

end ApiFirewall.Guarantees
