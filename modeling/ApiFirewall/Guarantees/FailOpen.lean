import ApiFirewall.Guarantees.ExtractionTotality
import ApiFirewall.Guarantees.ScoreAgreement
import ApiFirewall.Guarantees.SignalFormat
import ApiFirewall.Guarantees.TelemetryText

/-!
# What the engine leaves unscored

The gateway lets a request pass whose score it does not get, on the understanding that the consumer
follows up. Where the engine is reached and its models are loaded, that happens for exactly four
reasons: the token was issued after the clock was read, the streak is negative once it is narrowed, the body
has a number whose configured range is not two numbers, or a model raises on the feature vector. For
the same reasons the consumer skips the envelope, so there is no follow-up: such a request is
neither judged nor recorded.
-/

namespace ApiFirewall.Guarantees

open ApiFirewall.Wire ApiFirewall.Gateway ApiFirewall.Gateway.ZeroTrustFilter ApiFirewall.Engine
open ApiFirewall.Engine.KafkaConsumer ApiFirewall.KeyValue ApiFirewall.Reactive Deployment

section Signals

variable {K : Type} [Field K] [LinearOrder K] [FloorRing K]

/-- A written signal is read as the signal with the same fields, if there is one. -/
theorem validate_eq_some_iff {texts : NumberTexts K} {signal : RequestSignalDTO K}
    {s : RequestSignal K} :
    RequestSignal.validate texts signal.toJson = some s ↔ fieldsOf s = signal := by
  constructor
  · exact fieldsOf_of_validate texts
  · rintro rfl
    obtain ⟨t, hvalid, ht⟩ := validate_toJson texts (inBounds_fieldsOf s)
    rwa [fieldsOf_injective ht] at hvalid

/-- A written signal has no result exactly if no model has one for the vector of its fields. -/
theorem scoreSignal_eq_none_iff {config : EngineConfig K} {signal : RequestSignalDTO K} :
    scoreSignal config signal.toJson = none ↔ ∀ s, fieldsOf s = signal →
      ∀ vector, extractFeatures config.log2 s = some vector → config.model.score vector = none := by
  unfold scoreSignal
  simp only [Option.bind_eq_bind, Option.bind_eq_none_iff, validate_eq_some_iff]

/-- Why the engine does not score a signal that the gateway has built. -/
inductive Unscorable (d : Deployment K) (path : String) (claims : Option Claims) (clocks : Clocks)
    (failStreak : ℤ) (signal : RequestSignalDTO K) : Prop where
  | ahead (h : ¬ IssuedInPast claims clocks)
  | negativeStreak (h : toInt failStreak < 0)
  | oddRange (field : Text × Double K) (hmem : field ∈ signal.numericFields.entries)
      (h : (d.properties.baselineFor path field.1).length ≠ 2)
  | raised (s : RequestSignal K) (vector : List (Double K)) (hs : fieldsOf s = signal)
      (hvector : extractFeatures d.engine.log2 s = some vector)
      (hscore : d.engine.model.score vector = none)

variable {d : Deployment K}

omit [FloorRing K] in
/-- The ranges of a signal can be unpacked exactly if those that are configured for its fields are
two numbers. -/
theorem unpackable_buildSignal_iff {properties : SecurityProperties K} {rate10s rate60s failStreak : ℤ}
    {clocks : Clocks} {exchange : Exchange} {claims : Option Claims} {path bodyString : String}
    {platform : Platform K} {s : RequestSignal K}
    (hs : fieldsOf s = buildSignal platform properties rate10s rate60s failStreak clocks exchange
      claims path bodyString) :
    Unpackable s ↔ ∀ field ∈ s.numericFields.entries,
      (properties.baselineFor path field.1).length = 2 := by
  have hfields : s.numericFields = extractNumericFields platform bodyString :=
    congrArg RequestSignalDTO.numericFields hs
  have hranges : s.baselineNumericRanges =
      s.numericFields.map fun field _ => properties.baselineFor path field := by
    rw [hfields]
    exact congrArg RequestSignalDTO.baselineNumericRanges hs
  unfold Unpackable
  refine forall₂_congr fun field hfield => ?_
  have hlookup : s.numericFields.lookup field.1 = some field.2 := Dict.lookup_eq_some_iff.mpr hfield
  rw [hranges, Dict.lookup_map, hlookup, Option.map_some]
  simp

/-- Narrowed to 32 bits, an integer is within them. -/
theorem abs_toInt_le (n : ℤ) : |toInt n| ≤ 2 ^ 31 := by
  have hlow : -(2 ^ 32 / 2 : ℤ) ≤ toInt n := Int.le_bmod (by decide)
  have hhigh : toInt n < (2 ^ 32 + 1) / 2 := Int.bmod_lt (by decide)
  exact abs_le.mpr ⟨by omega, by omega⟩

/-- An integer within 33 bits is representable. -/
theorem representable_of_abs_le {n : ℤ} (h : |n| ≤ 2 ^ 32) : Double.Representable n := by
  have hlarge : (2 : ℤ) ^ 32 + 2 ^ 970 < 2 ^ 1024 := by decide +kernel
  exact (add_le_add_left h _).trans_lt hlarge

omit [FloorRing K] in
/-- The integers of a signal convert, if a map has no more members than an `int` counts. -/
theorem convertible_of_buildSignal {properties : SecurityProperties K}
    {rate10s rate60s failStreak : ℤ} {clocks : Clocks} {exchange : Exchange}
    {claims : Option Claims} {path bodyString : String} {platform : Platform K}
    (hsize : countTopLevelFields platform bodyString < 2 ^ 31) {s : RequestSignal K}
    (hs : fieldsOf s = buildSignal platform properties rate10s rate60s failStreak clocks exchange
      claims path bodyString) : Convertible s where
  distinctEndpoints := by
    have hone : s.distinctEndpoints60s.val = 1 := congrArg RequestSignalDTO.distinctEndpoints60s hs
    rw [hone]
    exact representable_of_abs_le (by decide)
  failedAuthStreak := by
    have hstreak : s.failedAuthStreak.val = toInt failStreak :=
      congrArg RequestSignalDTO.failedAuthStreak hs
    rw [hstreak]
    exact representable_of_abs_le ((abs_toInt_le failStreak).trans (by decide))
  paramDeviation := by
    have hcount : s.paramCount = countTopLevelFields platform bodyString :=
      congrArg RequestSignalDTO.paramCount hs
    have hbaseline : s.baselineParamCount = 8 := congrArg RequestSignalDTO.baselineParamCount hs
    have hnonneg : 0 ≤ countTopLevelFields platform bodyString := by
      unfold countTopLevelFields
      cases readBodyMap platform bodyString with
      | none => exact le_rfl
      | some members => exact Int.natCast_nonneg _
    rw [hcount, hbaseline]
    refine representable_of_abs_le ?_
    rw [abs_abs]
    exact abs_le.mpr ⟨by omega, by omega⟩

/-- The engine has no result for a signal of the gateway for exactly four reasons. -/
theorem scoreSignal_eq_none_iff_unscorable [IsStrictOrderedRing K] {rate10s rate60s failStreak : ℤ}
    {clocks : Clocks} {exchange : Exchange} {claims : Option Claims} {path bodyString : String}
    (h10s : 0 ≤ rate10s) (h60s : 0 ≤ rate60s)
    (hsize : countTopLevelFields d.platform bodyString < 2 ^ 31) {signal : RequestSignalDTO K}
    (hsignal : signal = buildSignal d.platform d.properties rate10s rate60s failStreak clocks exchange
      claims path bodyString) :
    scoreSignal d.engine signal.toJson = none ↔
      Unscorable d path claims clocks failStreak signal := by
  have hbounds : InBounds signal ↔ 0 ≤ toInt failStreak ∧ IssuedInPast claims clocks := by
    rw [hsignal, inBounds_buildSignal, and_iff_right h10s, and_iff_right h60s]
  rw [scoreSignal_eq_none_iff]
  constructor
  · intro hnone
    by_contra hscorable
    have hstreak : 0 ≤ toInt failStreak :=
      Int.not_lt.mp fun h => hscorable (.negativeStreak h)
    have hissued : IssuedInPast claims clocks := by_contra fun h => hscorable (.ahead h)
    obtain ⟨s, -, hs⟩ := validate_toJson d.engine.texts (hbounds.mpr ⟨hstreak, hissued⟩)
    have hunpackable : Unpackable s := by
      refine (unpackable_buildSignal_iff (hs.trans hsignal)).mpr fun field hfield => ?_
      have hmem : field ∈ signal.numericFields.entries := by
        rw [← hs]
        exact hfield
      exact by_contra fun hodd => hscorable (.oddRange field hmem hodd)
    obtain ⟨vector, hvector⟩ := (exists_extractFeatures_iff d.engine.log2 s).mpr
      ⟨hunpackable, convertible_of_buildSignal hsize (hs.trans hsignal)⟩
    exact hscorable (.raised s vector hs hvector (hnone s hs vector hvector))
  · intro hunscorable s hs vector hvector
    have hin : 0 ≤ toInt failStreak ∧ IssuedInPast claims clocks :=
      hbounds.mp (hs ▸ inBounds_fieldsOf s)
    cases hunscorable with
    | ahead h => exact absurd hin.2 h
    | negativeStreak h => exact absurd hin.1 (Int.not_le.mpr h)
    | oddRange field hmem h =>
      have hunpackable := ((exists_extractFeatures_iff d.engine.log2 s).mp ⟨vector, hvector⟩).1
      have hfield : field ∈ s.numericFields.entries := by
        rw [← hs] at hmem
        exact hmem
      exact absurd ((unpackable_buildSignal_iff (hs.trans hsignal)).mp hunpackable field hfield) h
    | raised t vector' ht hvector' hscore =>
      obtain rfl := fieldsOf_injective (ht.trans hs.symm)
      rw [hvector] at hvector'
      obtain rfl := Option.some.inj hvector'
      exact hscore

end Signals

section Runs

variable {K : Type} [Field K] [LinearOrder K] [FloorRing K] {d : Deployment K} {link : ScoreLink K}
  {w : State K}

/-- Answered increments are answered at least 1. -/
def CountsFromOne (log : List (Entry (Op K) Res)) : Prop :=
  ∀ e ∈ log, ∀ (path : List Branch) (key : String) (n : ℤ),
    e.event = ⟨path, .redis (.increment key), .value n⟩ → 1 ≤ n

/-- In every run, however calls end, an answered increment is answered at least 1. -/
theorem one_le_of_count {P : Action Stimulus (Env K) → Prop} (hrun : d.system.Run P start w) {i : ℕ}
    {path : List Branch} {key : String} {n : ℤ}
    (hmem : ⟨path, .redis (.increment key), .value n⟩ ∈ w.events i) : 1 ≤ n := by
  have hlog : w.shared.Positive ∧ CountsFromOne w.log := by
    refine hrun.log_rule (I := fun _ (s : Store String) (_ : List (Label K)) log =>
      s.Positive ∧ CountsFromOne log)
      ⟨Store.Positive.empty, by simp [CountsFromOne]⟩ (fun _ _ _ _ _ ih => ih)
      (fun _ _ _ _ _ _ _ _ ih => ih) ?_
    rintro now s ls log i path env op l m' - ⟨hpositive, ih⟩ - - -
    constructor
    · by_cases hredis : ∃ c, op = .redis c
      · obtain ⟨c, rfl⟩ := hredis
        exact positive_command hpositive env.delivery now c
      · have hstore := d.handle_store env now s fun c hop => hredis ⟨c, hop⟩
        change (d.handle env now op s).2.Positive
        rw [hstore]
        exact hpositive
    · intro e he path' key n hevent
      rcases List.mem_append.mp he with hold | hnew
      · exact ih e hold path' key n hevent
      · obtain rfl := List.mem_singleton.mp hnew
        simp only [Event.mk.injEq] at hevent
        obtain ⟨-, rfl, hreply⟩ := hevent
        exact one_le_of_increment hpositive (command_eq_value (eq_of_heq hreply)).2
  obtain ⟨e, he, -, hevent⟩ := mem_eventsOf.mp hmem
  exact hlog.2 e he path key n hevent

/-- Every signal reaches the engine, whose models are loaded. -/
def EngineReached : Action Stimulus (Env K × Transport) → Prop
  | .call _ _ env => env.2 = .delivered true
  | _ => True

/-- The score of a delivered signal is the engine's result, or the one that stands for a failed
call. -/
theorem scored_of_delivered (signal : RequestSignalDTO K) :
    scored (ThreatEngineClient.exchanged link.texts (scoreOutcome d link (.delivered true) signal)) =
      some (((scoreSignal d.engine signal.toJson).map ScoreResult.toDto).getD
        ThreatEngineClient.unscored) := by
  unfold scoreOutcome ThreatEngineClient.exchanged ScoreEndpoint.score scoreSignal
  cases hvalid : RequestSignal.validate d.engine.texts signal.toJson with
  | none => rfl
  | some s =>
    cases hresult : (extractFeatures d.engine.log2 s).bind d.engine.model.score with
    | none => simp [hresult, ThreatEngineClient.bodyToMono, isErrorStatus, scored]
    | some result => simp [hresult, ThreatEngineClient.bodyToMono, isErrorStatus, scored,
        readScoreResponse_toJson]

omit [LinearOrder K] [FloorRing K] in
/-- No result of the engine is the one that stands for a failed call. -/
theorem toDto_ne_unscored (result : ScoreResult K) : result.toDto ≠ ThreatEngineClient.unscored := by
  intro h
  have hdecision := congrArg ScoreResponseDTO.decision h
  cases hcase : result.decision <;>
    simp [ScoreResult.toDto, ThreatEngineClient.unscored, hcase, Decision.text] at hdecision

/-- In every run in which every signal reaches the loaded engine: a request that asked for a score is
let through unscored for exactly four reasons, which its claims, its clock, its streak and its signal
show, and for the same reasons the consumer attempts nothing for its envelope, if the names of its numeric
fields stay distinct in the record. -/
theorem unscored_iff_unscorable [IsStrictOrderedRing K]
    (hrun : (engineSystem d link).Run EngineReached start w)
    (hsize : ∀ text, countTopLevelFields d.platform text < 2 ^ 31) {i : ℕ} {exchange : Exchange}
    (hi : w.labels[i]? = some (.request exchange)) {path : List Branch} {signal : RequestSignalDTO K}
    {reply : Signal (ScoreResponseDTO K)} (hmem : ⟨path, .postScore signal, reply⟩ ∈ w.events i) :
    ∃ clientIp claims auth rate10s rate60s failStreak clocks,
      (Authenticated exchange claims auth ∧ ∀ a ∈ auth, a ∈ w.events i) ∧
      Counted exchange.path clientIp claims rate10s rate60s failStreak (w.events i) ∧
      .top .readClocks (.value clocks) ∈ w.events i ∧
      (scored reply = some ThreatEngineClient.unscored ↔
        Unscorable d exchange.path claims clocks failStreak signal) ∧
      ∀ k payload, CarriesEnvelope w i k payload → signal.NamesApart →
        (effectsOf d.engine payload = [] ↔
          Unscorable d exchange.path claims clocks failStreak signal) := by
  have hdeployed := run_of_engineRun hrun
  obtain ⟨m', hprogress⟩ := progress hdeployed hi
  obtain ⟨clientIp, claims, auth, rate10s, rate60s, failStreak, clocks, buffers, bodyString,
    -, hauth, hsub, hcounted, hclocks, hsignal⟩ := signal_of_carried hprogress hmem rfl
  have h10s := one_le_of_count hdeployed hcounted.first
  have h60s := one_le_of_count hdeployed hcounted.second
  have hnone : scoreSignal d.engine signal.toJson = none ↔
      Unscorable d exchange.path claims clocks failStreak signal :=
    scoreSignal_eq_none_iff_unscorable (by omega) (by omega) (hsize _) hsignal
  refine ⟨clientIp, claims, auth, rate10s, rate60s, failStreak, clocks, ⟨hauth, hsub⟩, hcounted,
    hclocks, ?_, ?_⟩
  · obtain ⟨e, he, -, hevent⟩ := mem_eventsOf.mp hmem
    obtain ⟨j, path', env, s, hreached, hreply⟩ := hrun.replies e he
    rw [hevent] at hreply
    change reply = ThreatEngineClient.exchanged link.texts (scoreOutcome d link env.2 signal) at hreply
    have hdelivered : env.2 = .delivered true := hreached
    rw [hreply, hdelivered, scored_of_delivered, Option.some.injEq, ← hnone]
    cases scoreSignal d.engine signal.toJson with
    | none => exact iff_of_true rfl rfl
    | some result => exact iff_of_false (toDto_ne_unscored result) (by simp)
  · intro k payload hk hnames
    obtain ⟨envelope, rfl, rfl, hencodable⟩ := received_of_carries hdeployed hmem hk
    have hreceived := scoreSignal_received d.engine d.mapOrder (hencodable hnames)
    obtain ⟨members, hscored⟩ := scoredMessage_received d.engine d.mapOrder envelope
    unfold effectsOf auditOf blockOf
    rw [← hnone, ← hreceived, hscored]
    cases scoreSignal d.engine (envelope.signal.received d.mapOrder) with
    | none => exact iff_of_true rfl rfl
    | some result => simp

end Runs

/-- A checkout with a token. -/
def checkoutWithToken : Exchange :=
  { sampleRequest "/api/checkout" "10.0.0.1" with headers := [("Authorization", "Bearer good")] }

/-- A run in which the engine is asked to score a checkout whose token is from the future. -/
def futureCheckout : State ℚ :=
  (engineSystem ahead sampleLink).after
    ((Action.spawn (Stimulus.request checkoutWithToken) ::
      callTop 2 0 sampleEnv ++ callCounters true 0 sampleEnv ++ callTop 7 0 sampleEnv ++
      [Action.spawn (Stimulus.message 9)]).map answering) start

/-- The checkout is let through unscored, and the consumer has nothing to do for its envelope. -/
theorem futureCheckout_unscored : ∃ claims clocks failStreak signal payload,
    Unscorable ahead "/api/checkout" claims clocks failStreak signal ∧
      CarriesEnvelope futureCheckout 0 1 payload ∧ effectsOf ahead.engine payload = [] := by
  have hrun : (engineSystem ahead sampleLink).Run EngineReached start futureCheckout := by
    refine System.Run.after (by decide +kernel) ?_
    intro a ha
    obtain ⟨b, -, rfl⟩ := List.mem_map.mp ha
    cases b <;> first | rfl | trivial
  have hrequest : futureCheckout.labels[0]? = some (.request checkoutWithToken) :=
    requestAt_eq_some.mp (by decide +kernel)
  have hsize : ∀ text, countTopLevelFields ahead.platform text < 2 ^ 31 := by
    intro text
    unfold countTopLevelFields readBodyMap
    split <;> exact show (0 : ℤ) < 2 ^ 31 by decide
  obtain ⟨e, he, hscore⟩ := Option.bind_eq_some_iff.mp
    (show ((futureCheckout.events 0)[10]?).bind scoreOf = some ThreatEngineClient.unscored by
      decide +kernel)
  obtain ⟨path, signal, reply, rfl, hscored⟩ := postScore_of_scoreOf hscore
  have hnames : ((futureCheckout.events 0)[10]?).all (fun e =>
      (carriedSignal e.op).all fun signal => signal.NamesApart) = true := by decide +kernel
  rw [he] at hnames
  obtain ⟨⟨i, payload⟩, hmessage, hi⟩ := Option.map_eq_some_iff.mp
    (show (messageAt futureCheckout 1).map Prod.fst = some 0 by decide +kernel)
  obtain rfl : i = 0 := hi
  have hcarries := carriesEnvelope_of_messageAt hmessage
  obtain ⟨-, claims, -, -, -, failStreak, clocks, -, -, -, hunscored, hskipped⟩ :=
    unscored_iff_unscorable hrun hsize hrequest (List.mem_of_getElem? he)
  have hreason := hunscored.mp hscored
  exact ⟨claims, clocks, failStreak, signal, payload, hreason, hcarries,
    (hskipped 1 payload hcarries (of_decide_eq_true hnames)).mpr hreason⟩

end ApiFirewall.Guarantees
