import ApiFirewall.Wire.Json
import Mathlib.Algebra.BigOperators.Group.List.Basic
import Mathlib.Algebra.Order.Floor.Defs
import Mathlib.Data.List.Dedup
import Mathlib.Data.Rat.Floor

/-!
# Request signals and their feature vectors

The scoring engine accepts a JSON object as a request signal if every field has a value of its
type within its bounds. The bounds are part of the field types here, so a signal that breaks
one cannot be built. Feature extraction maps a signal to a vector of fixed length; it fails
where the program would raise an exception.
-/

namespace ApiFirewall.Engine

open ApiFirewall.Wire

/-- A double that is at least zero. -/
abbrev NonNegDouble (K : Type) [Field K] [LinearOrder K] :=
  {x : Double K // Double.le (.finite 0) x = true}

/-- A double between zero and one. -/
abbrev ShareDouble (K : Type) [Field K] [LinearOrder K] :=
  {x : Double K // Double.le (.finite 0) x = true ∧ Double.le x (.finite 1) = true}

/-- An integer that is at least zero. -/
abbrev NonNegInt := {n : ℤ // 0 ≤ n}

/-- Zero or one. -/
abbrev FlagInt := {n : ℤ // 0 ≤ n ∧ n ≤ 1}

/-- A validated request signal. -/
structure RequestSignal (K : Type) [Field K] [LinearOrder K] where
  reqRate10s : NonNegDouble K
  reqRate60s : NonNegDouble K
  distinctEndpoints60s : NonNegInt
  failedAuthStreak : NonNegInt
  sessionAgeSeconds : NonNegDouble K
  geoVelocityKmph : NonNegDouble K
  knownBadUaFlag : FlagInt
  responseErrorRate5m : ShareDouble K
  offHoursFlag : FlagInt
  rawBody : Text
  paramCount : ℤ
  baselineParamCount : ℤ
  numericFields : Dict (Double K)
  baselineNumericRanges : Dict (List (Double K))

/-- How the validator reads numbers written as text, the special values aside. -/
structure NumberTexts (K : Type) where
  float : Text → Option (Double K)
  int : Text → Option ℤ

section Validation

variable {K : Type} [Field K] [LinearOrder K]

/-- The lower bound zero on a double. -/
def nonNegDouble (x : Double K) : Option (NonNegDouble K) :=
  if h : Double.le (.finite 0) x = true then some ⟨x, h⟩ else none

/-- The bounds zero and one on a double. -/
def shareDouble (x : Double K) : Option (ShareDouble K) :=
  if h : Double.le (.finite 0) x = true ∧ Double.le x (.finite 1) = true then some ⟨x, h⟩ else none

/-- The lower bound zero on an integer. -/
def nonNegInt (n : ℤ) : Option NonNegInt := if h : 0 ≤ n then some ⟨n, h⟩ else none

/-- The bounds zero and one on an integer. -/
def flagInt (n : ℤ) : Option FlagInt := if h : 0 ≤ n ∧ n ≤ 1 then some ⟨n, h⟩ else none

variable (texts : NumberTexts K)

/-- Read a float leniently: numbers, booleans and texts of numbers. -/
def readFloat : Json K → Option (Double K)
  | .int n => Double.ofInt? n
  | .real x => some x
  | .bool b => some (.finite (if b then 1 else 0))
  | .str s =>
    if s = "Infinity" then some .posInf
    else if s = "-Infinity" then some .negInf
    else if s = "NaN" then some .nan
    else texts.float s
  | _ => none

/-- Read an integer leniently: a float only without fractional part. -/
def readInt [FloorRing K] : Json K → Option ℤ
  | .int n => some n
  | .real (.finite x) => if ((⌊x⌋ : ℤ) : K) = x then some ⌊x⌋ else none
  | .bool b => some (if b then 1 else 0)
  | .str s => texts.int s
  | _ => none

/-- Read a text. -/
def readText : Json K → Option Text
  | .str s => some s
  | _ => none

/-- Read a dictionary of values of one type. -/
def readDict {α : Type} (read : Json K → Option α) : Json K → Option (Dict α)
  | .obj members => (Dict.ofMembers members).traverse read
  | _ => none

/-- Read a list of values of one type. -/
def readList {α : Type} (read : Json K → Option α) : Json K → Option (List α)
  | .arr items => items.mapM read
  | _ => none

/-- A field that must be present. -/
def required {α : Type} (members : List (Text × Json K)) (name : Text)
    (read : Json K → Option α) : Option α :=
  (member members name).bind read

/-- A field with a default. -/
def optional {α : Type} (members : List (Text × Json K)) (name : Text) (default : α)
    (read : Json K → Option α) : Option α :=
  match member members name with
  | none => some default
  | some value => read value

/-- Validate a JSON value as a request signal. -/
def RequestSignal.validate [FloorRing K] : Json K → Option (RequestSignal K)
  | .obj members => do
    let float := readFloat texts
    let int := readInt texts
    let reqRate10s ← required members "req_rate_10s" fun j => (float j).bind nonNegDouble
    let reqRate60s ← required members "req_rate_60s" fun j => (float j).bind nonNegDouble
    let distinctEndpoints60s ← required members "distinct_endpoints_60s" fun j =>
      (int j).bind nonNegInt
    let failedAuthStreak ← required members "failed_auth_streak" fun j => (int j).bind nonNegInt
    let sessionAgeSeconds ← required members "session_age_seconds" fun j =>
      (float j).bind nonNegDouble
    let geoVelocityKmph ← required members "geo_velocity_kmph" fun j => (float j).bind nonNegDouble
    let knownBadUaFlag ← required members "known_bad_ua_flag" fun j => (int j).bind flagInt
    let responseErrorRate5m ← required members "response_error_rate_5m" fun j =>
      (float j).bind shareDouble
    let offHoursFlag ← required members "off_hours_flag" fun j => (int j).bind flagInt
    let rawBody ← optional members "raw_body" ("" : Text) readText
    let paramCount ← optional members "param_count" 0 int
    let baselineParamCount ← optional members "baseline_param_count" 8 int
    let numericFields ← optional members "numeric_fields" Dict.empty (readDict float)
    let baselineNumericRanges ← optional members "baseline_numeric_ranges" Dict.empty
      (readDict (readList float))
    return { reqRate10s, reqRate60s, distinctEndpoints60s, failedAuthStreak, sessionAgeSeconds,
             geoVelocityKmph, knownBadUaFlag, responseErrorRate5m, offHoursFlag, rawBody,
             paramCount, baselineParamCount, numericFields, baselineNumericRanges }
  | _ => none

end Validation

/-- The names of the features, in vector order. -/
def featureOrder : List String :=
  ["req_rate_10s", "req_rate_60s", "distinct_endpoints_60s", "failed_auth_streak",
   "payload_entropy", "param_count_deviation", "price_or_qty_anomaly", "session_age_seconds",
   "geo_velocity_kmph", "known_bad_ua_flag", "response_error_rate_5m", "off_hours_flag"]

section Features

variable {K : Type} [Field K] [LinearOrder K]

/-- The share of a character in a text. -/
def frequency (s : Text) (c : CodePoint) : K := s.count c / s.length

/-- The entropy of the characters of a text, for a given binary logarithm. -/
def shannonEntropy (log2 : K → K) (s : Text) : K :=
  if s = [] then 0
  else -(s.dedup.map fun c => frequency s c * log2 (frequency s c)).sum

/-- How far a value lies outside its range, in units of the range's span. -/
def fieldDeviation (lo hi value : Double K) : Double K :=
  let span := Double.max (hi.sub lo) (.finite (1 / powerOfTen 6))
  if Double.lt value lo then (lo.sub value).div span
  else if Double.lt hi value then (value.sub hi).div span
  else .finite 0

/-- The worst deviation so far, after one more field; a range must be two numbers. -/
def worstDeviation (ranges : Dict (List (Double K))) (worst : Double K)
    (field : Text × Double K) : Option (Double K) :=
  match (ranges.lookup field.1).getD [.finite 0, .finite 1] with
  | [lo, hi] => some (worst.max (fieldDeviation lo hi field.2))
  | _ => none

/-- The worst deviation of the numeric fields, clipped at ten. -/
def numericFieldAnomaly (signal : RequestSignal K) : Option (Double K) :=
  if signal.numericFields.entries = [] then some (.finite 0)
  else (signal.numericFields.entries.foldlM (worstDeviation signal.baselineNumericRanges)
    (.finite 0)).map fun worst => worst.min (.ofInt 10)

/-- The feature vector of a signal. -/
def extractFeatures (log2 : K → K) (signal : RequestSignal K) : Option (List (Double K)) := do
  let paramDev := |signal.paramCount - signal.baselineParamCount|
  let distinctEndpoints ← Double.ofInt? signal.distinctEndpoints60s.val
  let failedAuthStreak ← Double.ofInt? signal.failedAuthStreak.val
  let paramDeviation ← Double.ofInt? paramDev
  let anomaly ← numericFieldAnomaly signal
  let knownBadUa ← Double.ofInt? signal.knownBadUaFlag.val
  let offHours ← Double.ofInt? signal.offHoursFlag.val
  let vector := [signal.reqRate10s.val, signal.reqRate60s.val, distinctEndpoints, failedAuthStreak,
    .finite (shannonEntropy log2 signal.rawBody), paramDeviation, anomaly,
    signal.sessionAgeSeconds.val, signal.geoVelocityKmph.val, knownBadUa,
    signal.responseErrorRate5m.val, offHours]
  if vector.length = featureOrder.length then some vector else none

/-- The component of a vector that belongs to a feature. -/
def featureOf (vector : List (Double K)) (feature : String) : Option (Double K) :=
  vector[featureOrder.idxOf feature]?

/-- Extraction is defined exactly if its conversions and the anomaly are. -/
theorem extractFeatures_eq_some_iff {log2 : K → K} {signal : RequestSignal K}
    {vector : List (Double K)} : extractFeatures log2 signal = some vector ↔
      ∃ distinctEndpoints failedAuthStreak paramDeviation anomaly knownBadUa offHours,
        Double.ofInt? signal.distinctEndpoints60s.val = some distinctEndpoints ∧
        Double.ofInt? signal.failedAuthStreak.val = some failedAuthStreak ∧
        Double.ofInt? |signal.paramCount - signal.baselineParamCount| = some paramDeviation ∧
        numericFieldAnomaly signal = some anomaly ∧
        Double.ofInt? signal.knownBadUaFlag.val = some knownBadUa ∧
        Double.ofInt? signal.offHoursFlag.val = some offHours ∧
        vector = [signal.reqRate10s.val, signal.reqRate60s.val, distinctEndpoints, failedAuthStreak,
          .finite (shannonEntropy log2 signal.rawBody), paramDeviation, anomaly,
          signal.sessionAgeSeconds.val, signal.geoVelocityKmph.val, knownBadUa,
          signal.responseErrorRate5m.val, offHours] := by
  constructor
  · intro h
    obtain ⟨distinctEndpoints, hdistinct, h⟩ := Option.bind_eq_some_iff.mp h
    obtain ⟨failedAuthStreak, hstreak, h⟩ := Option.bind_eq_some_iff.mp h
    obtain ⟨paramDeviation, hparam, h⟩ := Option.bind_eq_some_iff.mp h
    obtain ⟨anomaly, hanomaly, h⟩ := Option.bind_eq_some_iff.mp h
    obtain ⟨knownBadUa, hbad, h⟩ := Option.bind_eq_some_iff.mp h
    obtain ⟨offHours, hoff, h⟩ := Option.bind_eq_some_iff.mp h
    exact ⟨_, _, _, _, _, _, hdistinct, hstreak, hparam, hanomaly, hbad, hoff,
      (Option.some.inj h).symm⟩
  · rintro ⟨_, _, _, _, _, _, hdistinct, hstreak, hparam, hanomaly, hbad, hoff, rfl⟩
    unfold extractFeatures
    dsimp only
    rw [hdistinct, hstreak, hparam, hanomaly, hbad, hoff]
    rfl

/-- The deviation of the parameter count in the vector. -/
theorem featureOf_paramDeviation {log2 : K → K} {signal : RequestSignal K}
    {vector : List (Double K)} (h : extractFeatures log2 signal = some vector) :
    featureOf vector "param_count_deviation" =
      Double.ofInt? |signal.paramCount - signal.baselineParamCount| := by
  obtain ⟨_, _, deviation, _, _, _, -, -, hparam, -, -, -, rfl⟩ :=
    extractFeatures_eq_some_iff.mp h
  exact hparam.symm

end Features

/-- A quiet signal with the given counts, numeric fields and ranges. -/
def baseSignal (distinctEndpoints60s : NonNegInt) (paramCount : ℤ)
    (numericFields : Dict (Double ℚ)) (baselineNumericRanges : Dict (List (Double ℚ))) :
    RequestSignal ℚ where
  reqRate10s := ⟨.finite (1 / 2), by norm_num [Double.le]⟩
  reqRate60s := ⟨.finite (9 / 5), by norm_num [Double.le]⟩
  distinctEndpoints60s := distinctEndpoints60s
  failedAuthStreak := ⟨0, by decide⟩
  sessionAgeSeconds := ⟨.finite 1000, by norm_num [Double.le]⟩
  geoVelocityKmph := ⟨.finite 3, by norm_num [Double.le]⟩
  knownBadUaFlag := ⟨0, by decide⟩
  responseErrorRate5m := ⟨.finite (1 / 50), by norm_num [Double.le]⟩
  offHoursFlag := ⟨0, by decide⟩
  rawBody := ""
  paramCount := paramCount
  baselineParamCount := 8
  numericFields := numericFields
  baselineNumericRanges := baselineNumericRanges

end ApiFirewall.Engine
