import ApiFirewall.Backend.OrderService
import ApiFirewall.Guarantees.InspectedBody

/-!
# Numbers that the gateway and the backend share

Both sides parse the body, with different parsers. The gateway takes every body for UTF-8, with replacements
for what is not, and reads strict JSON; a body that it cannot read has no numbers for it. The backend
guesses the encoding, decodes encoded surrogates, and has constants for special doubles. Where the body is
a string in UTF-8 and both read an object it is the same one, up to the rounding of integers to doubles, so
the gateway misses a number of such a body exactly where it cannot read the body, or where an integer is
not a double.
-/

namespace ApiFirewall.Guarantees

open ApiFirewall.Backend ApiFirewall.Gateway ApiFirewall.Gateway.ZeroTrustFilter ApiFirewall.KeyValue
open ApiFirewall.Reactive ApiFirewall.Wire ApiFirewall.Wire.JsonText Deployment

section Bodies

variable {K : Type} [Field K]

/-- The gateway's parser reads the object in strict JSON at the front of a text, and nothing else. -/
def StrictReader (decimal : Text → Double K) (platform : Platform K) : Prop :=
  ∀ text, platform.readMap text = readObject ⟨false, decimal⟩ text

/-- The text is an object in strict JSON. -/
def StrictObject (decimal : Text → Double K) (text : String) : Prop :=
  (readObject ⟨false, decimal⟩ text).isSome = true

/-- The number that a JSON value is, if it is a finite one. -/
def finiteNumber : Json K → Option K
  | .int n => some n
  | .real (.finite x) => some x
  | _ => none

/-- The finite number that the members of an object have under a name; the last member of a name
counts. -/
def numberOf (members : List (Text × Json K)) (name : Text) : Option K :=
  ((Dict.ofMembers members).lookup name).bind finiteNumber

/-- The integers at top level are doubles. -/
def IntegersRepresentable (members : List (Text × Json K)) : Prop :=
  ∀ name n, (Dict.ofMembers members).lookup name = some (.int n) →
    (Double.ofInt n : Double K) = .finite n

variable {decimal : Text → Double K} {platform : Platform K}

omit [Field K] in
/-- A text that is an object is not blank. -/
theorem not_blank_of_readObject {d : Dialect K} {text : String} {members : List (Text × Json K)}
    (h : readObject d text = some members) : isBlank text = false := by
  obtain ⟨rest, hskip⟩ := skipSpace_of_readObject h
  have hmem : CodePoint.scalar '\x7b' ∈ Text.ofString text :=
    (List.dropWhile_sublist _).subset (hskip ▸ List.mem_cons_self .. : _ ∈ skipSpace (text : Text))
  obtain ⟨c, hc, hbrace⟩ := List.mem_map.mp hmem
  rw [isBlank, List.all_eq_false]
  exact ⟨c, hc, by rw [CodePoint.scalar.inj hbrace]; decide⟩

omit [Field K] in
/-- The gateway reads the members of a body that is an object in strict JSON. -/
theorem readBodyMap_eq (hreader : StrictReader decimal platform) (text : String) :
    readBodyMap platform text =
      (readObject ⟨false, decimal⟩ text).map Dict.ofMembers := by
  unfold readBodyMap
  rw [hreader]
  cases hread : readObject ⟨false, decimal⟩ text with
  | none => simp
  | some members => simp [not_blank_of_readObject hread]

/-- The numbers that the gateway extracts are those of a body that it can read. -/
theorem extractNumericFields_lookup (hreader : StrictReader decimal platform) (text : String)
    (name : Text) :
    (extractNumericFields platform text).lookup name =
      ((readObject ⟨false, decimal⟩ text).bind fun members =>
        (Dict.ofMembers members).lookup name).bind numberValue := by
  unfold extractNumericFields
  rw [readBodyMap_eq hreader]
  cases readObject ⟨false, decimal⟩ text with
  | none => rfl
  | some members => simp [Dict.lookup_filterMap]

/-- The finite numbers of one object are numbers of another one, as doubles and under the same names. -/
def KeptBy (members members' : List (Text × Json K)) : Prop :=
  ∀ name x, numberOf members name = some x →
    ((Dict.ofMembers members').lookup name).bind numberValue = some (.finite x)

/-- The finite numbers of an object are kept as doubles exactly if its integers are doubles. -/
theorem keptBy_self_iff (members : List (Text × Json K)) :
    KeptBy members members ↔ IntegersRepresentable members := by
  constructor
  · intro h name n hlookup
    have hnumber : numberOf members name = some (n : K) := by
      rw [numberOf, hlookup]
      rfl
    have hvalue := h name n hnumber
    rw [hlookup] at hvalue
    exact Option.some.inj hvalue
  · intro h name x hnumber
    obtain ⟨value, hlookup, hfinite⟩ := Option.bind_eq_some_iff.mp hnumber
    rw [hlookup, Option.bind_some]
    cases value with
    | int n =>
      rw [← Option.some.inj hfinite]
      exact congrArg some (h name n hlookup)
    | real y =>
      cases y with
      | finite z => rw [← Option.some.inj hfinite]; rfl
      | _ => cases hfinite
    | _ => cases hfinite

/-- The text that the gateway takes a body for is an object in strict JSON that keeps the numbers. -/
def Kept (decimal : Text → Double K) (body : Bytes) (members : List (Text × Json K)) : Prop :=
  ∃ members', readObject ⟨false, decimal⟩ (decodeUtf8 body) = some members' ∧ KeptBy members members'

/-- The backend reads such a body in UTF-8, too. -/
theorem detectEncoding_of_kept {body : Bytes} {members : List (Text × Json K)}
    (h : Kept decimal body members) : detectEncoding body = .utf8 := by
  obtain ⟨members', hread, -⟩ := h
  exact detectEncoding_of_readObject hread

/-- A body that is a string in UTF-8 keeps its numbers exactly if it is strict JSON for the gateway as well
and its integers are doubles. -/
theorem kept_iff {body : Bytes} {members : List (Text × Json K)}
    (hparsed : loads decimal body = some (.obj members))
    (hscalar : (decodeUtf8Strict body).isSome = true) :
    Kept decimal body members ↔
      StrictObject decimal (decodeUtf8 body) ∧ IntegersRepresentable members := by
  constructor
  · rintro ⟨members', hread, hkept⟩
    obtain rfl := Json.obj.inj (eq_of_readObject hparsed hscalar hread)
    exact ⟨by rw [StrictObject, hread]; rfl, (keptBy_self_iff members).mp hkept⟩
  · rintro ⟨hstrict, hintegers⟩
    obtain ⟨members', hread⟩ := Option.isSome_iff_exists.mp hstrict
    obtain rfl := Json.obj.inj (eq_of_readObject hparsed hscalar hread)
    exact ⟨members, hread, (keptBy_self_iff members).mpr hintegers⟩

/-- All finite numbers of a parsed body are extracted exactly if there is none, or the text that the gateway
takes the body for keeps them. -/
theorem extracted_iff (hreader : StrictReader decimal platform) (body : Bytes)
    (members : List (Text × Json K)) :
    (∀ name x, numberOf members name = some x →
      (extractNumericFields platform (decodeUtf8 body)).lookup name = some (.finite x)) ↔
    (∀ name, numberOf members name = none) ∨ Kept decimal body members := by
  simp only [extractNumericFields_lookup hreader]
  cases hread : readObject ⟨false, decimal⟩ (decodeUtf8 body) with
  | none =>
    have hnot : ¬ Kept decimal body members := by
      rintro ⟨members', hread', -⟩
      rw [hread] at hread'
      cases hread'
    simp only [Option.bind_none, hnot, or_false]
    constructor
    · intro h name
      cases hnumber : numberOf members name with
      | none => rfl
      | some x => cases h name x hnumber
    · intro h name x hnumber
      rw [h name] at hnumber
      cases hnumber
  | some members' =>
    constructor
    · exact fun h => .inr ⟨members', hread, h⟩
    · rintro (hnone | ⟨members'', hread', hkept⟩) name x hnumber
      · rw [hnone name] at hnumber
        cases hnumber
      · obtain rfl := Option.some.inj (hread.symm.trans hread')
        exact hkept name x hnumber

end Bodies

section Runs

variable {K : Type} [Field K] [LinearOrder K] [FloorRing K] {d : Deployment K}
variable {P : Action Stimulus (Env K) → Prop} {w : State K}

/-- Every signal of a thread has the finite numbers of an object. -/
def NumbersShared (w : State K) (i : ℕ) (members : List (Text × Json K)) : Prop :=
  ∀ name x, numberOf members name = some x → ∀ a ∈ w.events i, ∀ signal,
    carriedSignal a.op = some signal → signal.numericFields.lookup name = some (.finite x)

/-- In every run, the published and scored signals of a `POST` that is handed on have all finite
numbers that the backend finds at top level in its body exactly if there is none, or the text that the
gateway takes the body for is strict JSON and keeps them. Only a body that the backend reads in UTF-8 keeps
them; if it is a string in UTF-8, it does exactly if it is strict JSON and its integers at top level are
doubles. -/
theorem numbersShared_iff {decimal : Text → Double K}
    (hreader : StrictReader decimal d.platform) (hrun : d.system.Run P start w) {i : ℕ}
    {exchange : Exchange} (hi : w.labels[i]? = some (.request exchange))
    (hmethod : exchange.method = "POST") {e : Event (Op K) Res} (he : e ∈ w.events i)
    {exchange' : Exchange} (hop : e.op = .chain exchange') {members : List (Text × Json K)}
    (hparsed : loads decimal exchange'.body.flatten = some (.obj members)) :
    (NumbersShared w i members ↔
      (∀ name, numberOf members name = none) ∨ Kept decimal exchange'.body.flatten members) ∧
    (Kept decimal exchange'.body.flatten members →
      detectEncoding exchange'.body.flatten = .utf8) ∧
    ((decodeUtf8Strict exchange'.body.flatten).isSome = true →
      (Kept decimal exchange'.body.flatten members ↔
        StrictObject decimal (decodeUtf8 exchange'.body.flatten) ∧ IntegersRepresentable members)) := by
  refine ⟨?_, detectEncoding_of_kept, kept_iff hparsed⟩
  have hmay : mayHaveBody exchange.method = true := by rw [hmethod]; decide
  obtain ⟨-, ⟨a, ha, hsome⟩, hall⟩ := signalsDescribe_of_run hrun hi hmay he hop
  obtain ⟨signal, hsignal⟩ := Option.isSome_iff_exists.mp hsome
  rw [← extracted_iff hreader]
  constructor
  · intro h name x hnumber
    rw [← (hall a ha signal hsignal).numericFields]
    exact h name x hnumber a ha signal hsignal
  · intro h name x hnumber b hb signal' hsignal'
    rw [(hall b hb signal' hsignal').numericFields]
    exact h name x hnumber

end Runs

/-- The sample deployment with a parser of strict JSON. -/
def strictSample : Deployment ℚ :=
  { sample with
    platform :=
      { sample.platform with
        readMap := fun text => readObject ⟨false, fun _ => .finite 0⟩ text } }

/-- The octets of a text in ASCII. -/
def ascii (text : String) : Bytes := text.toList.map fun c => UInt8.ofNat c.toNat

/-- An order with the given body. -/
def order (body : Bytes) : Exchange :=
  { path := "/api/orders", method := "POST", headers := [("Authorization", "Bearer good")],
    remoteAddress := some "203.0.113.7", body := [body] }

/-- A run in which the order is handed on. -/
def orderRun (body : Bytes) : State ℚ :=
  strictSample.system.after
    (.spawn (.request (order body)) :: callTop 3 0 sampleEnv ++ callCounters true 0 sampleEnv ++
      callTop 4 0 sampleEnv) start

/-- An order that both sides read. -/
def plainOrder : Bytes := ascii "\x7b\"qty\":1\x7d"

/-- An order with a constant that strict JSON does not have. -/
def constantOrder : Bytes := ascii "\x7b\"qty\":-5,\"x\":NaN\x7d"

/-- The number of an order that both sides read is shared. -/
theorem numbersShared_plainOrder : NumbersShared (orderRun plainOrder) 0 [("qty", .int 1)] := by
  obtain ⟨hrun, hhanded⟩ : strictSample.system.Run Anything start (orderRun plainOrder) ∧
      ((orderRun plainOrder).events 0).filterMap (fun e => handedOn e.op) = [order plainOrder] :=
    System.Run.after_and (by decide +kernel) fun _ _ => trivial
  obtain ⟨e, he, hop⟩ := exists_handedOn _ _ _ hhanded
  have hreader : StrictReader (fun _ => .finite 0) strictSample.platform := fun _ => rfl
  have hparsed : loads (fun _ => .finite 0) (order plainOrder).body.flatten =
      some (.obj [("qty", .int (1 : ℤ))] : Json ℚ) := rfl
  obtain ⟨hshared, -, hkept⟩ := numbersShared_iff hreader hrun rfl rfl he hop hparsed
  refine hshared.mpr (.inr ((hkept (by decide +kernel)).mpr ⟨rfl, ?_⟩))
  intro name n hlookup
  have hmem : (name, Json.int n) ∈ [(("qty" : Text), (Json.int 1 : Json ℚ))] :=
    Dict.lookup_eq_some_iff.mp hlookup
  obtain ⟨rfl, hn⟩ := Prod.mk.inj (List.mem_singleton.mp hmem)
  obtain rfl := Json.int.inj hn
  decide +kernel

/-- The backend finds a negative quantity in an order of which the gateway reads no number. -/
theorem not_numbersShared_constantOrder :
    ¬ ∀ (decimal : Text → Double ℚ) (d : Deployment ℚ), StrictReader decimal d.platform →
      ∀ w : State ℚ, d.system.Run Anything start w → ∀ (i : ℕ) (exchange : Exchange),
      w.labels[i]? = some (.request exchange) → exchange.method = "POST" →
      ∀ e ∈ w.events i, ∀ exchange', e.op = .chain exchange' →
      ∀ members, loads decimal exchange'.body.flatten = some (.obj members) →
        NumbersShared w i members := by
  intro h
  obtain ⟨hrun, hhanded⟩ : strictSample.system.Run Anything start (orderRun constantOrder) ∧
      ((orderRun constantOrder).events 0).filterMap (fun e => handedOn e.op) =
        [order constantOrder] :=
    System.Run.after_and (by decide +kernel) fun _ _ => trivial
  obtain ⟨e, he, hop⟩ := exists_handedOn _ _ _ hhanded
  obtain ⟨-, ⟨a, ha, hsome⟩, hall⟩ := signalsDescribe_of_run hrun rfl (by decide) he hop
  obtain ⟨signal, hsignal⟩ := Option.isSome_iff_exists.mp hsome
  have hshared := h (fun _ => .finite 0) strictSample (fun _ => rfl) _ hrun 0 _ rfl rfl e he _ hop
    [("qty", .int (-5)), ("x", .real .nan)] rfl "qty" (-5) rfl a ha signal hsignal
  rw [(hall a ha signal hsignal).numericFields] at hshared
  exact absurd hshared (by decide +kernel)

end ApiFirewall.Guarantees
