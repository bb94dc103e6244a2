import ApiFirewall.Engine.WorstDeviation
import ApiFirewall.Guarantees.Baselines
import ApiFirewall.Guarantees.ExtractionTotality

/-!
# Adding fields to a body

Two bodies that differ in fields of one of them are compared by the vectors that the engine extracts
from their signals. A numeric field that nobody has configured gets a wide range, not none: beyond the
range it has a deviation like any other field. The deviation of the parameter count is an absolute
difference, which falls while fields are added below the expected count.
-/

namespace ApiFirewall.Guarantees

open ApiFirewall.Wire ApiFirewall.Gateway ApiFirewall.Gateway.ZeroTrustFilter ApiFirewall.Engine
open Deployment SecurityProperties

section Definitions

variable {K : Type} [Field K] [LinearOrder K]

/-- All that a signal is built from except the body. -/
structure SignalContext (K : Type) where
  platform : Platform K
  properties : SecurityProperties K
  rate10s : ℤ
  rate60s : ℤ
  failStreak : ℤ
  clocks : Clocks
  exchange : Exchange
  claims : Option Claims
  path : String

variable (context : SignalContext K)

/-- The signal that the gateway builds for a body. -/
def SignalContext.signal (body : String) : RequestSignalDTO K :=
  buildSignal context.platform context.properties context.rate10s context.rate60s
    context.failStreak context.clocks context.exchange context.claims context.path body

/-- The engine accepts the signal of the body and extracts the vector. -/
def SignalContext.Extracts [FloorRing K] (config : EngineConfig K) (body : String)
    (vector : List (Double K)) : Prop :=
  ∃ s, RequestSignal.validate config.texts (context.signal body).toJson = some s ∧
    extractFeatures config.log2 s = some vector

/-- The second body is an object with the fields of the first one and perhaps others. -/
structure AddsFields (platform : Platform K) (body body' : String) (d d' : Dict (Json K)) : Prop where
  body : readBodyMap platform body = some d
  body' : readBodyMap platform body' = some d'
  kept : ∀ name value, d.lookup name = some value → d'.lookup name = some value

/-- The number that a body has under a name at top level. -/
def numberIn (platform : Platform K) (body : String) (name : Text) : Option (Double K) :=
  ((readBodyMap platform body).bind fun d => d.lookup name).bind numberValue

omit [LinearOrder K] in
/-- The numeric fields of a signal are the numbers in the body. -/
theorem numericFields_lookup (body : String) (name : Text) :
    (context.signal body).numericFields.lookup name = numberIn context.platform body name := by
  change (extractNumericFields context.platform body).lookup name = _
  unfold extractNumericFields numberIn
  cases readBodyMap context.platform body with
  | none => rfl
  | some d => rw [Option.map_some, Option.getD_some, Dict.lookup_filterMap, Option.bind_some]

omit [LinearOrder K] in
/-- Each numeric field of a signal has the range of its name. -/
theorem rangeOf_signal {body : String} {name : Text} {x : Double K}
    (h : numberIn context.platform body name = some x) :
    rangeOf (context.signal body).baselineNumericRanges name =
      context.properties.baselineFor context.path name := by
  rw [← numericFields_lookup] at h
  change (((context.signal body).numericFields.map _).lookup name).getD _ = _
  rw [Dict.lookup_map, h, Option.map_some, Option.getD_some]

end Definitions

variable {K : Type} [Field K] [LinearOrder K] [IsStrictOrderedRing K] [FloorRing K]
variable {config : EngineConfig K} {context : SignalContext K} {body : String}
variable {vector : List (Double K)}

omit [LinearOrder K] [IsStrictOrderedRing K] [FloorRing K] in
/-- A body that is an object has as many parameters as fields. -/
theorem paramCount_signal {d : Dict (Json K)} (hbody : readBodyMap context.platform body = some d) :
    (context.signal body).paramCount = d.size := by
  change countTopLevelFields context.platform body = d.size
  rw [countTopLevelFields, hbody, Option.map_some, Option.getD_some]

omit [IsStrictOrderedRing K] in
/-- The deviation of the parameter count is the distance of the number of fields from eight. -/
theorem paramDeviation_eq {d : Dict (Json K)} (hbody : readBodyMap context.platform body = some d)
    (h : context.Extracts config body vector) :
    featureOf vector "param_count_deviation" =
      some (.finite (Double.roundSignificand ((d.size : ℤ) - 8).natAbs : ℤ)) := by
  obtain ⟨s, hvalid, hvector⟩ := h
  have hfields := fieldsOf_of_validate config.texts hvalid
  have hcount : s.paramCount = d.size :=
    (congrArg RequestSignalDTO.paramCount hfields).trans (paramCount_signal hbody)
  have hbaseline : s.baselineParamCount = 8 := congrArg RequestSignalDTO.baselineParamCount hfields
  obtain ⟨_, _, deviation, _, _, _, -, -, hdeviation, -, -, -, -⟩ :=
    extractFeatures_eq_some_iff.mp hvector
  rw [featureOf_paramDeviation hvector, hdeviation]
  rw [(Double.ofInt?_eq_some_iff.mp hdeviation).2, hcount, hbaseline, Int.abs_eq_natAbs,
    Double.nearest_natCast]

/-- Rounded distances from eight compare as the distances, where one of the counts is at most the
other. -/
theorem roundSignificand_distance_le_iff {n m : ℕ} (h : n ≤ m) :
    Double.roundSignificand ((n : ℤ) - 8).natAbs ≤ Double.roundSignificand ((m : ℤ) - 8).natAbs ↔
      m = n ∨ 16 ≤ n + m := by
  constructor
  · intro hle
    by_contra hcontra
    have hsmall : ∀ k ≤ 8, Double.roundSignificand k = k := by decide +kernel
    rw [hsmall _ (by omega), hsmall _ (by omega)] at hle
    omega
  · intro hor
    apply Double.roundSignificand_mono
    omega

omit [Field K] [LinearOrder K] [IsStrictOrderedRing K] [FloorRing K] in
/-- A dictionary that keeps the fields of another one has at least as many. -/
theorem AddsFields.size_le {platform : Platform K} {body body' : String} {d d' : Dict (Json K)}
    (h : AddsFields platform body body' d d') : d.size ≤ d'.size := by
  have hsub : d.entries ⊆ d'.entries := by
    rintro ⟨name, value⟩ hmem
    exact Dict.lookup_eq_some_iff.mp (h.kept name value (Dict.lookup_eq_some_iff.mpr hmem))
  exact List.Nodup.length_le_of_subset (d.nodup.of_map _) hsub

/-- A body with further fields deviates at least as much in the number of its parameters exactly if it
has no further field or both bodies together have sixteen. -/
theorem paramDeviation_le_iff {body' : String} {d d' : Dict (Json K)} {vector' : List (Double K)}
    (hadds : AddsFields context.platform body body' d d')
    (hvector : context.Extracts config body vector)
    (hvector' : context.Extracts config body' vector') :
    ∃ deviation deviation', featureOf vector "param_count_deviation" = some deviation ∧
      featureOf vector' "param_count_deviation" = some deviation' ∧
      (Double.le deviation deviation' = true ↔ d'.size = d.size ∨ 16 ≤ d.size + d'.size) := by
  refine ⟨_, _, paramDeviation_eq hadds.body hvector, paramDeviation_eq hadds.body' hvector', ?_⟩
  rw [← roundSignificand_distance_le_iff hadds.size_le, Double.le, decide_eq_true_iff, Int.cast_le,
    Int.ofNat_le]

omit [IsStrictOrderedRing K] in
/-- The engine extracts a vector from a signal that keeps the bounds, has ranges of two numbers and
counts that are not beyond the doubles. -/
theorem exists_extracts (config : EngineConfig K) {context : SignalContext K} {body : String}
    (hbounds : InBounds (context.signal body))
    (hranges : ∀ name x, numberIn context.platform body name = some x →
      (context.properties.baselineFor context.path name).length = 2)
    (hstreak : Double.Representable (toInt context.failStreak))
    (hcount : Double.Representable |(context.signal body).paramCount - 8|) :
    ∃ vector, context.Extracts config body vector := by
  obtain ⟨s, hvalid, hfields⟩ := validate_toJson config.texts hbounds
  have hnumeric := congrArg RequestSignalDTO.numericFields hfields
  have hbaselines := congrArg RequestSignalDTO.baselineNumericRanges hfields
  have hunpack : Unpackable s := by
    rintro ⟨name, x⟩ hmem range hrange
    have hx : numberIn context.platform body name = some x := by
      rw [← numericFields_lookup, ← hnumeric]
      exact Dict.lookup_eq_some_iff.mpr hmem
    have hrangeOf := rangeOf_signal context hx
    rw [← hbaselines, rangeOf] at hrangeOf
    change s.baselineNumericRanges.lookup name = some range at hrange
    have hbaseline : range = context.properties.baselineFor context.path name := by
      rw [← hrangeOf]
      change range = (s.baselineNumericRanges.lookup name).getD _
      rw [hrange, Option.getD_some]
    rw [hbaseline]
    exact hranges name x hx
  have hconvert : Convertible s := by
    constructor
    · have hone : s.distinctEndpoints60s.val = 1 :=
        congrArg RequestSignalDTO.distinctEndpoints60s hfields
      rw [hone]
      decide +kernel
    · rw [show s.failedAuthStreak.val = _ from congrArg RequestSignalDTO.failedAuthStreak hfields]
      exact hstreak
    · rw [show s.paramCount = _ from congrArg RequestSignalDTO.paramCount hfields,
        show s.baselineParamCount = 8 from congrArg RequestSignalDTO.baselineParamCount hfields]
      exact hcount
  obtain ⟨vector, hvector⟩ := (exists_extractFeatures_iff config.log2 s).mpr ⟨hunpack, hconvert⟩
  exact ⟨vector, s, hvalid, hvector⟩

/-- An object without members. -/
def emptyBody : String := "\x7b\x7d"

/-- An object with a small number. -/
def smallBody : String := "\x7b\"ts\":5\x7d"

/-- An object with the time in milliseconds. -/
def timestampBody : String := "\x7b\"ts\":1700000000000\x7d"

/-- An object with eight members. -/
def fullBody : String :=
  "\x7b\"a\":1,\"b\":1,\"c\":1,\"d\":1,\"e\":1,\"f\":1,\"g\":1,\"h\":1\x7d"

/-- The same object with a hidden flag. -/
def flaggedBody : String :=
  "\x7b\"a\":1,\"b\":1,\"c\":1,\"d\":1,\"e\":1,\"f\":1,\"g\":1,\"h\":1,\"admin_override\":true\x7d"

/-- The members of the object with eight members. -/
def fullMembers : List (Text × Json ℚ) :=
  ["a", "b", "c", "d", "e", "f", "g", "h"].map fun name : String => (name, .int 1)

/-- The members of these bodies. -/
def bodyTable : List (String × List (Text × Json ℚ)) :=
  [(emptyBody, []), (smallBody, [("ts", .int 5)]), (timestampBody, [("ts", .int 1700000000000)]),
   (fullBody, fullMembers), (flaggedBody, fullMembers ++ [(("admin_override" : Text), .bool true)])]

/-- A first request to the catalogue under the deployed configuration. -/
def catalogueRequest : SignalContext ℚ where
  platform :=
    { readMap := fun body => (bodyTable.find? fun e => e.1 = body).map Prod.snd
      showDouble := fun _ => "0.0" }
  properties := deployed
  rate10s := 1
  rate60s := 1
  failStreak := 0
  clocks := sampleEnv.clocks
  exchange := sampleRequest "/api/catalog" "203.0.113.7"
  claims := none
  path := "/api/catalog"

/-- The engine extracts a vector from each of these bodies. -/
theorem catalogueRequest_extracts (body : String) (hbody : body ∈ bodyTable.map Prod.fst) :
    ∃ vector, catalogueRequest.Extracts sample.engine body vector := by
  have hcounts : ∀ body ∈ bodyTable.map Prod.fst,
      Double.Representable |countTopLevelFields catalogueRequest.platform body - 8| := by
    decide +kernel
  apply exists_extracts
  · apply (inBounds_buildSignal ..).mpr
    exact ⟨by decide, by decide, by decide, fun c hc => by cases hc⟩
  · intro name x _
    change (deployed.baselineFor "/api/catalog" name).length = 2
    rw [deployed_unconstrained]
    rfl
  · decide +kernel
  · exact hcounts body hbody

/-- A hidden flag beyond the expected count makes the parameters deviate more. -/
theorem paramDeviation_le_flagged :
    ∃ vector vector' deviation deviation',
      catalogueRequest.Extracts sample.engine fullBody vector ∧
      catalogueRequest.Extracts sample.engine flaggedBody vector' ∧
      featureOf vector "param_count_deviation" = some deviation ∧
      featureOf vector' "param_count_deviation" = some deviation' ∧
      Double.le deviation deviation' = true := by
  obtain ⟨vector, hvector⟩ := catalogueRequest_extracts fullBody (by decide)
  obtain ⟨vector', hvector'⟩ := catalogueRequest_extracts flaggedBody (by decide)
  have hadds : AddsFields catalogueRequest.platform fullBody flaggedBody
      (.ofMembers fullMembers) (.ofMembers (fullMembers ++ [(("admin_override" : Text), .bool true)])) := by
    refine ⟨rfl, rfl, fun name value hvalue => ?_⟩
    have hname : "admin_override" ≠ name := by
      rintro rfl
      cases hvalue
    change ((Dict.ofMembers fullMembers).insert "admin_override" (.bool true)).lookup name = _
    rw [Dict.lookup_insert_of_ne _ hname, hvalue]
  obtain ⟨deviation, deviation', hdeviation, hdeviation', hiff⟩ :=
    paramDeviation_le_iff hadds hvector hvector'
  exact ⟨vector, vector', deviation, deviation', hvector, hvector', hdeviation, hdeviation',
    hiff.mpr (.inr (by decide))⟩

/-- Adding fields to an empty object makes the parameters deviate less. -/
theorem paramDeviation_lowered_full :
    ¬ ∀ (config : EngineConfig ℚ) (context : SignalContext ℚ) (body body' : String)
      (d d' : Dict (Json ℚ)) (vector vector' : List (Double ℚ)),
      AddsFields context.platform body body' d d' →
      context.Extracts config body vector → context.Extracts config body' vector' →
      ∀ deviation deviation', featureOf vector "param_count_deviation" = some deviation →
        featureOf vector' "param_count_deviation" = some deviation' →
        Double.le deviation deviation' = true := by
  intro h
  obtain ⟨vector, hvector⟩ := catalogueRequest_extracts emptyBody (by decide)
  obtain ⟨vector', hvector'⟩ := catalogueRequest_extracts fullBody (by decide)
  have hadds : AddsFields catalogueRequest.platform emptyBody fullBody .empty
      (.ofMembers fullMembers) := ⟨rfl, rfl, fun name value hvalue => by cases hvalue⟩
  have hle := h _ _ _ _ _ _ _ _ hadds hvector hvector' _ _ (paramDeviation_eq hadds.body hvector)
    (paramDeviation_eq hadds.body' hvector')
  have height : Double.roundSignificand (((Dict.empty : Dict (Json ℚ)).size : ℤ) - 8).natAbs = 8 := by
    decide +kernel
  have hzero : Double.roundSignificand
      (((Dict.ofMembers fullMembers).size : ℤ) - 8).natAbs = 0 := by decide +kernel
  rw [height, hzero] at hle
  norm_num [Double.le] at hle

end ApiFirewall.Guarantees
