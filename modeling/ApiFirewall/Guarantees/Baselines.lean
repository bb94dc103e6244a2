import ApiFirewall.Engine.NumericAnomaly
import ApiFirewall.Guarantees.SignalFormat

/-!
# Configured baselines

A baseline is configured under the name of its endpoint and field with a colon between them, and is
looked up under the same name. Binding drops the colon from a name that is not written in brackets,
so the lookup never finds it, and the field is as unconstrained as one that nobody has configured.
-/

namespace ApiFirewall.Guarantees

open ApiFirewall.Wire ApiFirewall.Gateway ApiFirewall.Gateway.ZeroTrustFilter ApiFirewall.Engine
open ApiFirewall.Reactive Deployment SecurityProperties

/-- A configured range of a field of an endpoint. -/
structure Baseline (K : Type) where
  endpoint : String
  field : String
  min : Double K
  max : Double K

variable {K : Type}

/-- The name under which a baseline is configured. -/
def Baseline.key (b : Baseline K) : String := b.endpoint ++ ":" ++ b.field

/-- The name is not written in brackets. -/
def Baseline.Unbracketed (b : Baseline K) : Prop := b.key.toList.head? ≠ some '['

instance (b : Baseline K) : Decidable b.Unbracketed :=
  inferInstanceAs (Decidable (b.key.toList.head? ≠ some '['))

/-- A configuration with the given baselines, after binding. -/
def withBaselines (properties : SecurityProperties K) (baselines : List (Baseline K)) :
    SecurityProperties K :=
  { properties with
    numericBaselines := .ofMembers (baselines.map fun b => ((bindKey b.key : Text), [b.min, b.max])) }

/-- Binding a name that is not written in brackets drops its colons. -/
theorem colon_not_mem_bindKey {key : String} (h : key.toList.head? ≠ some '[') :
    ':' ∉ (bindKey key).toList := by
  unfold bindKey
  split
  · rename_i rest hkey
    simp [hkey] at h
  · have hcolon : (':').isAlphanum = false := by decide
    simp [hcolon]

variable [Field K]

/-- Baselines that are not written in brackets are never found. -/
theorem baselineFor_withBaselines (properties : SecurityProperties K)
    {baselines : List (Baseline K)} (h : ∀ b ∈ baselines, b.Unbracketed) (endpoint : String)
    (field : Text) :
    (withBaselines properties baselines).baselineFor endpoint field = unconstrained := by
  have hmissing : (withBaselines properties baselines).numericBaselines.lookup
      (endpoint ++ (":" : String) ++ field) = none := by
    refine Dict.lookup_ofMembers_of_ne fun m hm heq => ?_
    obtain ⟨b, hb, rfl⟩ := List.mem_map.mp hm
    refine colon_not_mem_bindKey (h b hb) ?_
    have hcolon : CodePoint.scalar ':' ∈ Text.ofString (bindKey b.key) := by
      change Text.ofString (bindKey b.key) = _ at heq
      rw [heq]
      exact List.mem_append_left _ (List.mem_append_right _ (List.mem_singleton_self _))
    obtain ⟨c, hc, hscalar⟩ := List.mem_map.mp hcolon
    rwa [CodePoint.scalar.inj hscalar] at hc
  rw [baselineFor, hmissing, Option.getD_none]

variable [LinearOrder K]

/-- The configured range is the one that is looked up, and every accepted signal of a request to its
endpoint with its field outside of the range has a positive anomaly. -/
structure TakesEffect [FloorRing K] (texts : NumberTexts K) (properties : SecurityProperties K)
    (b : Baseline K) : Prop where
  bound : properties.baselineFor b.endpoint b.field = [b.min, b.max]
  detects : Double.lt b.min b.max = true → ∀ (platform : Platform K)
    (rate10s rate60s failStreak : ℤ) (clocks : Clocks) (exchange : Exchange)
    (claims : Option Claims) (bodyString : String) (signal : RequestSignalDTO K)
    (s : RequestSignal K) (value : Double K),
    signal = buildSignal platform properties rate10s rate60s failStreak clocks exchange claims
      b.endpoint bodyString →
    RequestSignal.validate texts signal.toJson = some s →
    signal.numericFields.lookup b.field = some value →
    Double.lt value b.min = true ∨ Double.lt b.max value = true →
    ∃ anomaly, numericFieldAnomaly s = some anomaly ∧ Double.lt (.finite 0) anomaly = true

omit [LinearOrder K] in
/-- Where no baseline is ever found, the fields of a signal are ranged as unconstrained ones. -/
theorem lookup_unconstrained {properties : SecurityProperties K}
    (h : ∀ endpoint field, properties.baselineFor endpoint field = unconstrained)
    (platform : Platform K) (rate10s rate60s failStreak : ℤ) (clocks : Clocks)
    (exchange : Exchange) (claims : Option Claims) (path bodyString : String) :
    ∀ name value, (buildSignal platform properties rate10s rate60s failStreak clocks exchange claims
      path bodyString).numericFields.lookup name = some value →
      (buildSignal platform properties rate10s rate60s failStreak clocks exchange claims path
        bodyString).baselineNumericRanges.lookup name = some unconstrained := by
  intro name value hvalue
  simp only [buildSignal] at hvalue ⊢
  rw [Dict.lookup_map, hvalue, Option.map_some, h]

variable [FloorRing K] [IsStrictOrderedRing K]

/-- Baselines that are not written in brackets take effect exactly if they say of a field what holds
of every field that nobody has configured. -/
theorem takesEffect_iff (texts : NumberTexts K) (properties : SecurityProperties K)
    {baselines : List (Baseline K)} (h : ∀ b ∈ baselines, b.Unbracketed) {b : Baseline K} :
    TakesEffect texts (withBaselines properties baselines) b ↔
      [b.min, b.max] = unconstrained := by
  have hbound := baselineFor_withBaselines properties h
  refine ⟨fun heffect => heffect.bound.symm.trans (hbound _ _), fun hdefault => ?_⟩
  refine ⟨(hbound _ _).trans hdefault.symm, fun _ => ?_⟩
  rintro platform rate10s rate60s failStreak clocks exchange claims bodyString signal s value rfl
    hvalid hvalue houtside
  have hlookup := lookup_unconstrained hbound platform rate10s rate60s failStreak clocks exchange
    claims b.endpoint bodyString
  rw [← fieldsOf_of_validate texts hvalid] at hvalue hlookup
  have hranged : Ranged s.baselineNumericRanges s.numericFields.entries := fun field hfield =>
    ⟨_, _, hlookup _ _ (Dict.lookup_eq_some_iff.mpr hfield)⟩
  obtain ⟨anomaly, hanomaly, hpos⟩ := numericFieldAnomaly_spec hranged
  simp only [unconstrained, List.cons.injEq] at hdefault
  rw [hdefault.1, hdefault.2.1] at houtside
  exact ⟨anomaly, hanomaly, hpos.mpr ⟨(b.field, value), Dict.lookup_eq_some_iff.mp hvalue, _, _,
    hlookup _ _ hvalue, houtside⟩⟩

/-- A baseline that says what holds of every other field takes effect. -/
theorem unconstrainedPrice_takesEffect :
    TakesEffect sample.engine.texts
      (withBaselines deployed [⟨"/api/checkout", "price", .finite (-powerOfTen 9),
        .finite (powerOfTen 9)⟩])
      ⟨"/api/checkout", "price", .finite (-powerOfTen 9), .finite (powerOfTen 9)⟩ :=
  (takesEffect_iff sample.engine.texts deployed (by decide)).mpr rfl

/-- The deployed baselines. -/
def deployedBaselines : List (Baseline ℚ) :=
  [⟨"/api/checkout", "qty", .finite 1, .finite 10⟩,
   ⟨"/api/checkout", "price", .finite 1, .finite 10000⟩,
   ⟨"/api/checkout", "discount_pct", .finite 0, .finite 30⟩]

/-- They are not written in brackets. -/
theorem deployedBaselines_unbracketed : ∀ b ∈ deployedBaselines, b.Unbracketed := by decide

/-- The deployed configuration has them. -/
theorem deployed_eq :
    (deployed : SecurityProperties ℚ) = withBaselines deployed deployedBaselines := by
  have hkeys : deployedBaselines.map Baseline.key =
      ["/api/checkout:qty", "/api/checkout:price", "/api/checkout:discount_pct"] := by decide
  simp only [deployedBaselines, List.map_cons, List.map_nil, List.cons.injEq] at hkeys
  obtain ⟨hqty, hprice, hdiscount, -⟩ := hkeys
  simp only [withBaselines, deployed, deployedBaselines, List.map_cons, List.map_nil, hqty, hprice,
    hdiscount]

/-- No field is constrained by the deployed configuration. -/
theorem deployed_unconstrained (endpoint : String) (field : Text) :
    (deployed : SecurityProperties ℚ).baselineFor endpoint field = unconstrained := by
  rw [deployed_eq]
  exact baselineFor_withBaselines deployed deployedBaselines_unbracketed endpoint field

/-- Every baseline that is not written in brackets takes effect. -/
def BaselinesTakeEffect (texts : NumberTexts K) (properties : SecurityProperties K) : Prop :=
  ∀ baselines : List (Baseline K), (∀ b ∈ baselines, b.Unbracketed) → ∀ b ∈ baselines,
    TakesEffect texts (withBaselines properties baselines) b

/-- The deployed baselines do not. -/
theorem deployedBaselines_without_effect :
    ¬ BaselinesTakeEffect sample.engine.texts (deployed : SecurityProperties ℚ) := by
  intro hall
  have hbound := (hall deployedBaselines deployedBaselines_unbracketed _ (List.mem_cons_self ..)).bound
  rw [← deployed_eq, deployed_unconstrained] at hbound
  exact absurd hbound (by decide)

end ApiFirewall.Guarantees
