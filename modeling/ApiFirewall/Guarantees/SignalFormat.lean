import ApiFirewall.Guarantees.BlockWriters

/-!
# Signals that the engine accepts

The gateway writes a signal as JSON, and the engine validates what it reads. Validation inverts
writing on the signals that keep the engine's bounds. A signal that the gateway builds keeps them
exactly if its counts are not negative and its token was not issued in the future.
-/

namespace ApiFirewall.Guarantees

open ApiFirewall.Wire ApiFirewall.Gateway ApiFirewall.Gateway.ZeroTrustFilter ApiFirewall.Engine
open ApiFirewall.KeyValue ApiFirewall.Reactive Deployment

section Format

variable {K : Type} [Field K] [LinearOrder K]

/-- The fields of a validated signal. -/
def fieldsOf (s : RequestSignal K) : RequestSignalDTO K where
  reqRate10s := s.reqRate10s.val
  reqRate60s := s.reqRate60s.val
  distinctEndpoints60s := s.distinctEndpoints60s.val
  failedAuthStreak := s.failedAuthStreak.val
  sessionAgeSeconds := s.sessionAgeSeconds.val
  geoVelocityKmph := s.geoVelocityKmph.val
  knownBadUaFlag := s.knownBadUaFlag.val
  responseErrorRate5m := s.responseErrorRate5m.val
  offHoursFlag := s.offHoursFlag.val
  rawBody := s.rawBody
  paramCount := s.paramCount
  baselineParamCount := s.baselineParamCount
  numericFields := s.numericFields
  baselineNumericRanges := s.baselineNumericRanges

/-- The bounds that the engine sets on the fields of a signal. -/
structure InBounds (signal : RequestSignalDTO K) : Prop where
  reqRate10s : Double.le (.finite 0) signal.reqRate10s = true
  reqRate60s : Double.le (.finite 0) signal.reqRate60s = true
  distinctEndpoints60s : 0 ≤ signal.distinctEndpoints60s
  failedAuthStreak : 0 ≤ signal.failedAuthStreak
  sessionAgeSeconds : Double.le (.finite 0) signal.sessionAgeSeconds = true
  geoVelocityKmph : Double.le (.finite 0) signal.geoVelocityKmph = true
  knownBadUaFlag : 0 ≤ signal.knownBadUaFlag ∧ signal.knownBadUaFlag ≤ 1
  responseErrorRate5m : Double.le (.finite 0) signal.responseErrorRate5m = true ∧
    Double.le signal.responseErrorRate5m (.finite 1) = true
  offHoursFlag : 0 ≤ signal.offHoursFlag ∧ signal.offHoursFlag ≤ 1

/-- A validated signal keeps its bounds. -/
theorem inBounds_fieldsOf (s : RequestSignal K) : InBounds (fieldsOf s) where
  reqRate10s := s.reqRate10s.property
  reqRate60s := s.reqRate60s.property
  distinctEndpoints60s := s.distinctEndpoints60s.property
  failedAuthStreak := s.failedAuthStreak.property
  sessionAgeSeconds := s.sessionAgeSeconds.property
  geoVelocityKmph := s.geoVelocityKmph.property
  knownBadUaFlag := s.knownBadUaFlag.property
  responseErrorRate5m := s.responseErrorRate5m.property
  offHoursFlag := s.offHoursFlag.property

omit [Field K] [LinearOrder K] in
/-- A written dictionary is read back, if its values are. -/
theorem readDict_writeDict {α : Type} {read : Json K → Option α} {write : α → Json K}
    (h : ∀ a, read (write a) = some a) (d : Dict α) :
    readDict read (writeDict write d) = some d := by
  change (Dict.ofMembers (d.map fun _ => write).entries).traverse read = some d
  rw [Dict.ofMembers_entries]
  exact Dict.traverse_map d fun e _ => h e.2

variable (texts : NumberTexts K)

omit [LinearOrder K] in
/-- A written double is read back. -/
@[simp] theorem readFloat_writeDouble (x : Double K) : readFloat texts (writeDouble x) = some x := by
  cases x <;> rfl

omit [LinearOrder K] in
/-- A written range is read back. -/
theorem readList_writeDouble (range : List (Double K)) :
    readList (readFloat texts) (.arr (range.map writeDouble)) = some range := by
  change (range.map writeDouble).mapM (readFloat texts) = some range
  induction range with
  | nil => rfl
  | cons x rest ih =>
    rw [List.map_cons, List.mapM_cons, readFloat_writeDouble, ih]
    rfl

variable [FloorRing K]

/-- Validation reads the fields of a written signal and checks their bounds. -/
private theorem validate_toJson_eq (signal : RequestSignalDTO K) :
    RequestSignal.validate texts signal.toJson = do
      let reqRate10s ← nonNegDouble signal.reqRate10s
      let reqRate60s ← nonNegDouble signal.reqRate60s
      let distinctEndpoints60s ← nonNegInt signal.distinctEndpoints60s
      let failedAuthStreak ← nonNegInt signal.failedAuthStreak
      let sessionAgeSeconds ← nonNegDouble signal.sessionAgeSeconds
      let geoVelocityKmph ← nonNegDouble signal.geoVelocityKmph
      let knownBadUaFlag ← flagInt signal.knownBadUaFlag
      let responseErrorRate5m ← shareDouble signal.responseErrorRate5m
      let offHoursFlag ← flagInt signal.offHoursFlag
      return { reqRate10s, reqRate60s, distinctEndpoints60s, failedAuthStreak, sessionAgeSeconds,
               geoVelocityKmph, knownBadUaFlag, responseErrorRate5m, offHoursFlag,
               rawBody := signal.rawBody, paramCount := signal.paramCount,
               baselineParamCount := signal.baselineParamCount,
               numericFields := signal.numericFields,
               baselineNumericRanges := signal.baselineNumericRanges } := by
  simp only [RequestSignal.validate, RequestSignalDTO.toJson, required, Engine.optional, member,
    List.reverse_cons, List.reverse_nil, List.nil_append, List.cons_append, List.find?_cons,
    Text.ofString_inj, String.reduceEq, decide_true, decide_false, Option.map_some, Option.bind_some,
    readFloat_writeDouble, readInt, readText,
    readDict_writeDict (readFloat_writeDouble texts),
    readDict_writeDict (readList_writeDouble texts)]
  rfl

/-- A written signal that keeps the bounds is accepted, and its fields are read back. -/
theorem validate_toJson {signal : RequestSignalDTO K} (h : InBounds signal) :
    ∃ s, RequestSignal.validate texts signal.toJson = some s ∧ fieldsOf s = signal := by
  rw [validate_toJson_eq]
  simp only [nonNegDouble, nonNegInt, flagInt, shareDouble, h.reqRate10s, h.reqRate60s,
    h.distinctEndpoints60s, h.failedAuthStreak, h.sessionAgeSeconds, h.geoVelocityKmph,
    h.knownBadUaFlag, h.responseErrorRate5m, h.offHoursFlag, dite_true, and_self]
  exact ⟨_, rfl, rfl⟩

omit [Field K] [LinearOrder K] [FloorRing K] in
/-- A check keeps the value that it accepts. -/
private theorem val_of_check {α : Type} (p : α → Prop) [DecidablePred p] {x : α}
    {y : {x : α // p x}} (h : (if hx : p x then some ⟨x, hx⟩ else none) = some y) : y.val = x := by
  obtain ⟨_, hsome⟩ := Option.dite_none_right_eq_some.mp h
  exact (congrArg Subtype.val (Option.some.inj hsome)).symm

/-- What an accepted signal holds are the fields that were written. -/
theorem fieldsOf_of_validate {signal : RequestSignalDTO K} {s : RequestSignal K}
    (h : RequestSignal.validate texts signal.toJson = some s) : fieldsOf s = signal := by
  have hdouble : ∀ {x : Double K} {y}, nonNegDouble x = some y → y.val = x :=
    val_of_check fun x => Double.le (.finite 0) x = true
  have hshare : ∀ {x : Double K} {y}, shareDouble x = some y → y.val = x :=
    val_of_check fun x => Double.le (.finite 0) x = true ∧ Double.le x (.finite 1) = true
  have hint : ∀ {n : ℤ} {m}, nonNegInt n = some m → m.val = n := val_of_check fun n => 0 ≤ n
  have hflag : ∀ {n : ℤ} {m}, flagInt n = some m → m.val = n :=
    val_of_check fun n => 0 ≤ n ∧ n ≤ 1
  rw [validate_toJson_eq] at h
  obtain ⟨reqRate10s, h₁, h⟩ := Option.bind_eq_some_iff.mp h
  obtain ⟨reqRate60s, h₂, h⟩ := Option.bind_eq_some_iff.mp h
  obtain ⟨distinctEndpoints60s, h₃, h⟩ := Option.bind_eq_some_iff.mp h
  obtain ⟨failedAuthStreak, h₄, h⟩ := Option.bind_eq_some_iff.mp h
  obtain ⟨sessionAgeSeconds, h₅, h⟩ := Option.bind_eq_some_iff.mp h
  obtain ⟨geoVelocityKmph, h₆, h⟩ := Option.bind_eq_some_iff.mp h
  obtain ⟨knownBadUaFlag, h₇, h⟩ := Option.bind_eq_some_iff.mp h
  obtain ⟨responseErrorRate5m, h₈, h⟩ := Option.bind_eq_some_iff.mp h
  obtain ⟨offHoursFlag, h₉, h⟩ := Option.bind_eq_some_iff.mp h
  obtain rfl := Option.some.inj h
  simp only [fieldsOf, hdouble h₁, hdouble h₂, hint h₃, hint h₄, hdouble h₅, hdouble h₆, hflag h₇,
    hshare h₈, hflag h₉]

/-- The engine accepts a signal and reads the fields that the gateway wrote. -/
def Understood (signal : RequestSignalDTO K) : Prop :=
  ∃ s, RequestSignal.validate texts signal.toJson = some s ∧ fieldsOf s = signal

/-- Exactly the signals that keep the bounds are understood. -/
theorem understood_iff_inBounds (signal : RequestSignalDTO K) :
    Understood texts signal ↔ InBounds signal := by
  refine ⟨?_, validate_toJson texts⟩
  rintro ⟨s, -, rfl⟩
  exact inBounds_fieldsOf s

end Format

section Signals

variable {K : Type} [Field K] [LinearOrder K] [IsStrictOrderedRing K]

/-- The token was not issued after the clock was read. -/
def IssuedInPast (claims : Option Claims) (clocks : Clocks) : Prop :=
  ∀ c, claims = some c → c.issuedAt.getD clocks.issuedAtDefault ≤ clocks.now

/-- A session has a negative age exactly if its token was issued in the future. -/
theorem zero_le_sessionAge (claims : Option Claims) (clocks : Clocks) :
    Double.le (.finite (0 : K)) (sessionAge claims clocks) = true ↔ IssuedInPast claims clocks := by
  cases claims with
  | none => simp [sessionAge, IssuedInPast, Double.le]
  | some c =>
    rw [sessionAge, Double.zero_le_ofInt]
    simp only [IssuedInPast, Option.some.injEq, forall_eq']
    omega

/-- A signal of the gateway keeps the bounds exactly if its counts are not negative and its token
was not issued in the future. -/
theorem inBounds_buildSignal (platform : Platform K) (properties : SecurityProperties K)
    (rate10s rate60s failStreak : ℤ) (clocks : Clocks) (exchange : Exchange)
    (claims : Option Claims) (path bodyString : String) :
    InBounds (buildSignal platform properties rate10s rate60s failStreak clocks exchange claims path
      bodyString) ↔
      0 ≤ rate10s ∧ 0 ≤ rate60s ∧ 0 ≤ toInt failStreak ∧ IssuedInPast claims clocks := by
  constructor
  · intro h
    exact ⟨Double.zero_le_ofInt.mp h.reqRate10s, Double.zero_le_ofInt.mp h.reqRate60s,
      h.failedAuthStreak, (zero_le_sessionAge claims clocks).mp h.sessionAgeSeconds⟩
  · rintro ⟨h10s, h60s, hstreak, hissued⟩
    have hflag : ∀ b : Bool, 0 ≤ (if b then 1 else 0 : ℤ) ∧ (if b then 1 else 0 : ℤ) ≤ 1 := by
      decide
    exact
      { reqRate10s := Double.zero_le_ofInt.mpr h10s
        reqRate60s := Double.zero_le_ofInt.mpr h60s
        distinctEndpoints60s := by simp [buildSignal]
        failedAuthStreak := hstreak
        sessionAgeSeconds := (zero_le_sessionAge claims clocks).mpr hissued
        geoVelocityKmph := by simp [buildSignal, Double.le]
        knownBadUaFlag := hflag _
        responseErrorRate5m := by simp [buildSignal, Double.le]
        offHoursFlag := hflag _ }

/-- The engine understands a signal of the gateway exactly if its counts are not negative and its
token was not issued in the future. -/
theorem understood_iff [FloorRing K] (texts : NumberTexts K) (platform : Platform K)
    (properties : SecurityProperties K) (rate10s rate60s failStreak : ℤ) (clocks : Clocks)
    (exchange : Exchange) (claims : Option Claims) (path bodyString : String) :
    Understood texts (buildSignal platform properties rate10s rate60s failStreak clocks exchange
      claims path bodyString) ↔
      0 ≤ rate10s ∧ 0 ≤ rate60s ∧ 0 ≤ toInt failStreak ∧ IssuedInPast claims clocks := by
  rw [understood_iff_inBounds, inBounds_buildSignal]

/-- A platform that reads every body as an order. -/
def orderPlatform : Platform ℚ :=
  { sample.platform with readMap := fun _ => some [("item_id", .int 101), ("qty", .int 3)] }

/-- An order with a token. -/
def orderWithToken : Exchange :=
  { sampleRequest "/api/orders" "10.0.0.1" with
    method := "POST", headers := [("Authorization", "Bearer good")] }

/-- The clocks five seconds after the token was issued. -/
def orderClocks : Clocks := { sampleEnv.clocks with now := 5 * 10 ^ 9 }

/-- The signal of such an order is understood. -/
theorem orderSignal_understood : Understood sample.engine.texts
    (buildSignal orderPlatform sample.properties 1 2 1 orderClocks orderWithToken
      (some { subject := some "alice", issuedAt := some 0 }) "/api/orders"
      "\x7b\"item_id\":101,\"qty\":3\x7d") := by
  refine (understood_iff sample.engine.texts orderPlatform sample.properties 1 2 1 orderClocks
    orderWithToken _ "/api/orders" _).mpr ⟨by decide, by decide, by decide, ?_⟩
  intro c hc
  obtain rfl := Option.some.inj hc
  decide

end Signals

section Runs

variable {K : Type} [Field K] [LinearOrder K] [FloorRing K] {d : Deployment K} {w : State K}

/-- An increment of a run is answered at least 1. -/
theorem one_le_of_answered (hrun : d.system.Run StoreAnswers start w) {i : ℕ}
    {path : List Branch} {key : String} {n : ℤ}
    (hmem : ⟨path, .redis (.increment key), .value n⟩ ∈ w.events i) : 1 ≤ n := by
  obtain ⟨e, he, -, hevent⟩ := mem_eventsOf.mp hmem
  obtain ⟨pre, post, hsplit⟩ := List.append_of_mem he
  exact one_le_of_increment (positive_storeOf pre)
    ((replayed_of_run hrun).2 pre e post hsplit _ _ _ hevent).symm

/-- In every run in which no streak outgrows its field and no token comes from the future, every
signal is understood. -/
theorem signals_understood [IsStrictOrderedRing K] (hrun : d.system.Run StoreAnswers start w)
    (texts : NumberTexts K) {i : ℕ} {exchange : Exchange}
    (hi : w.labels[i]? = some (.request exchange))
    (hstreak : ∀ path identity (n : ℤ), ⟨path, .redis (.increment
      (RedisStateService.failstreakKey identity)), .value n⟩ ∈ w.events i → n < 2 ^ 31)
    (hissued : ∀ token c clocks,
      .top (.parseSignedClaims token) (.value (.claims c)) ∈ w.events i →
      .top .readClocks (.value clocks) ∈ w.events i → IssuedInPast (some c) clocks)
    {e : Event (Op K) Res} (he : e ∈ w.events i) {signal : RequestSignalDTO K}
    (hsignal : carriedSignal e.op = some signal) : Understood texts signal := by
  obtain ⟨m', hprogress⟩ := progress hrun hi
  obtain ⟨clientIp, claims, auth, rate10s, rate60s, failStreak, clocks, buffers, bodyString,
    -, hauth, hsub, hcounted, hclocks, rfl⟩ := signal_of_carried hprogress he hsignal
  have h10s := one_le_of_answered hrun hcounted.first
  have h60s := one_le_of_answered hrun hcounted.second
  rw [understood_iff_inBounds, inBounds_buildSignal]
  refine ⟨by omega, by omega, ?_, ?_⟩
  · rcases hcounted.third with hvalue | ⟨-, rfl⟩
    · have hpos := one_le_of_answered hrun hvalue
      have hlt := hstreak _ _ _ hvalue
      rw [toInt_of_lt (by omega) hlt]
      omega
    · decide
  · cases hauth with
    | publicPath => simp [IssuedInPast]
    | token => exact hissued _ _ clocks (hsub _ (List.mem_singleton_self _)) hclocks

end Runs

/-- A deployment whose token library accepts a token that is issued five seconds from now. -/
def ahead : Deployment ℚ :=
  { sample with
    parseSignedClaims := fun now _ =>
      some (.claims { subject := some "alice", issuedAt := some (now + 5 * 10 ^ 9) }) }

/-- A run in which a request with such a token publishes its signal, and the engine consumes it. -/
def futureOrder : State ℚ :=
  ahead.system.after
    (.spawn (.request { sampleRequest "/api/orders" "10.0.0.1" with
        headers := [("Authorization", "Bearer good")] }) ::
      callTop 2 0 sampleEnv ++ callCounters true 0 sampleEnv ++ callTop 4 0 sampleEnv ++
      [.spawn (.message 9)]) start

/-- The signal is not understood, and the engine skips its message. -/
theorem futureOrder_skipped :
    ahead.system.Run StoreAnswers start futureOrder ∧
      ∃ record, Consumed futureOrder 1 0 record ∧
        ¬ Understood ahead.engine.texts record.value.signal ∧ futureOrder.events 1 = [] := by
  refine ⟨System.Run.after (by decide +kernel) (by decide), ?_⟩
  have hskipped : ((finishedMessage futureOrder 1).bind fun e => (sentRecord e.event).map
      fun record => (e.thread, record.value.signal.sessionAgeSeconds)) =
        some (0, .finite (-5)) := by decide +kernel
  obtain ⟨e, he, hrest⟩ := Option.bind_eq_some_iff.mp hskipped
  obtain ⟨record, hrecord, heq⟩ := Option.map_eq_some_iff.mp hrest
  rw [Prod.mk.injEq] at heq
  refine ⟨record, heq.1 ▸ consumed_of_finishedMessage he hrecord, fun h => ?_, by decide +kernel⟩
  have hage := ((understood_iff_inBounds _ _).mp h).sessionAgeSeconds
  rw [heq.2] at hage
  exact absurd hage (by decide +kernel)

end ApiFirewall.Guarantees
