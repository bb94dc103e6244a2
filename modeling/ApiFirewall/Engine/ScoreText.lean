import ApiFirewall.Engine.RecordText
import ApiFirewall.Engine.ScoreEndpoint

/-!
# The exchange about a score as texts

The gateway posts a signal as the text that its mapper sets for it, and the engine answers with the
text of its result. Each side reads what the other one has written in its own dialect.
-/

namespace ApiFirewall.Gateway.ThreatEngineClient

open ApiFirewall.Wire ApiFirewall.Wire.JsonText

variable {K : Type}

/-- The request body of a signal, in the style of the client's encoder. -/
def bodyValue (style : Style) (showDouble : Double K → String) (signal : RequestSignalDTO K) :
    Bytes :=
  encodeText (style.write (fun x => showDouble x) signal.toJson)

/-- The gateway's JSON, which has no constants for doubles. -/
def dialect (decimal : Text → Double K) : Dialect K := ⟨false, decimal⟩

/-- What the octets of a response body contain. -/
def readBody (decimal : Text → Double K) (octets : Bytes) : Body K :=
  if octets = [] then .empty
  else
    match (Backend.decodeUtf8Strict octets).bind fun text => readDocument (dialect decimal) text with
    | none => .unreadable
    | some value => .json value

end ApiFirewall.Gateway.ThreatEngineClient

namespace ApiFirewall.Engine.ScoreEndpoint

open ApiFirewall.Wire ApiFirewall.Wire.JsonText ApiFirewall.Gateway ApiFirewall.Engine.KafkaConsumer
open ApiFirewall.Reactive

variable {K : Type}

/-- A response as it is sent. -/
structure SentResponse where
  status : ℕ
  octets : Bytes
  deriving DecidableEq, Repr

mutual

/-- No double in a value is special. -/
def isCompliant : Json K → Bool
  | .real (.finite _) => true
  | .real _ => false
  | .arr items => isCompliantItems items
  | .obj members => isCompliantMembers members
  | .null | .bool _ | .int _ | .str _ => true

/-- No double in an item is special. -/
def isCompliantItems : List (Json K) → Bool
  | [] => true
  | v :: rest => isCompliant v && isCompliantItems rest

/-- No double in a member is special. -/
def isCompliantMembers : List (Text × Json K) → Bool
  | [] => true
  | (_, v) :: rest => isCompliant v && isCompliantMembers rest

end

/-- The answer to an exception. -/
def serverError : SentResponse where
  status := 500
  octets := encodeText "Internal Server Error"

/-- Set the body of a response in the style of the framework. A value with a special double or with a text
that cannot be encoded raises an exception, and an exception is answered with a plain text. -/
def render (style : Style) (repr : K → String) (response : Response K) : SentResponse :=
  match response.body with
  | .empty => { status := response.status, octets := [] }
  | .unreadable => serverError
  | .json value =>
    if isCompliant value then
      match (style.write (withConstants repr) value).toString? with
      | some text => { status := response.status, octets := encodeText text }
      | none => serverError
    else serverError

/-- A response as the gateway reads it. -/
def SentResponse.received (decimal : Text → Double K) (sent : SentResponse) : Response K where
  status := sent.status
  body := ThreatEngineClient.readBody decimal sent.octets

/-- The octets of a string are decoded to it. -/
theorem decodeUtf8Strict_encodeText (s : String) : Backend.decodeUtf8Strict (encodeText s) = some s := by
  rw [Backend.decodeUtf8Strict_eq_some_iff, encodeText, Text.ofString, List.flatMap_map]
  rfl

/-- The engine reads the object that an encoder has set without surrogates. -/
theorem loads_encodeText {decimal : Text → Double K} {text : Text}
    {members : List (Text × Json K)} (hencoded : text.map .encoded = text)
    (h : readDocument (KafkaConsumer.dialect decimal) text = some (.obj members)) :
    Backend.loads decimal (encodeText text) = some (.obj members) := by
  obtain ⟨s, rfl⟩ : ∃ s : String, text = s :=
    ⟨_, Text.toString?_eq_some.mp (Text.toString?_of_encoded hencoded)⟩
  have hstrict := decodeUtf8Strict_encodeText s
  have hdecode := Backend.decodeUtf8Pass_of_strict hstrict
  have htext : decodeUtf8 (encodeText s) = s :=
    Option.some.inj (Option.ite_none_right_eq_some.mp hstrict).2
  have hobject : readObject (KafkaConsumer.dialect decimal) (decodeUtf8 (encodeText s)) =
      some members := by
    obtain ⟨r, hread, hv⟩ := Option.bind_eq_some_iff.mp h
    rw [htext, readObject, hread, Option.bind_some,
      Option.some.inj (Option.ite_none_right_eq_some.mp hv).2]
  rw [Backend.loads, Backend.decode, Backend.detectEncoding_of_readObject hobject]
  dsimp only
  rw [hdecode, Option.bind_some]
  exact h

/-- A result is read as it was set, if the texts of its scores denote them. -/
theorem readBody_render {style : Style} (hstyle : style.LeavesSurrogates)
    {decimal : Text → Double K} {repr : K → String} {result : ScoreResult K}
    (h : ∀ x ∈ [result.isolationScore, result.xgboostScore, result.finalScore],
      Denoted (ThreatEngineClient.dialect decimal) (withConstants repr) (.finite x)) :
    (render style repr { status := 200, body := .json result.toJson }).received decimal =
      { status := 200, body := .json result.toJson } := by
  have hparts : Throughout (Denoted (ThreatEngineClient.dialect decimal) (withConstants repr))
      Text.Unpaired result.toJson := by
    refine .obj (fun m hm => ?_) fun m hm => ?_
    · simp only [List.mem_cons, List.not_mem_nil, or_false] at hm
      rcases hm with rfl | rfl | rfl | rfl | rfl <;> exact Text.unpaired_ofString _
    · simp only [List.mem_cons, List.not_mem_nil, or_false] at hm
      rcases hm with rfl | rfl | rfl | rfl | rfl
      · exact .real (h _ (by simp))
      · exact .real (h _ (by simp))
      · exact .real (h _ (by simp))
      · exact .str (Text.unpaired_ofString _)
      · exact .str (Text.unpaired_ofString _)
  have hread : readDocument (ThreatEngineClient.dialect decimal)
      (style.write (withConstants repr) result.toJson) = some result.toJson :=
    Style.readDocument_write (fun _ hx => hx.legible) hparts
  have hkept : result.toJson.encodable = result.toJson := by
    simp only [ScoreResult.toJson, Json.encodable, Json.mapText, Json.mapTextMembers,
      Text.encodable_ofString]
  have hencoded := hstyle.write (encoded_withConstants repr) result.toJson
  rw [hkept] at hencoded
  obtain ⟨text, htext⟩ : ∃ text : String,
      (style.write (withConstants repr) result.toJson).toString? = some text :=
    ⟨_, Text.toString?_of_encoded hencoded⟩
  rw [Text.toString?_eq_some.mp htext] at hread
  have hne : encodeText text ≠ [] := by
    intro hnil
    have hdecode := decodeUtf8Strict_encodeText text
    rw [hnil] at hdecode
    rw [← Option.some.inj hdecode] at hread
    cases hread
  have hcompliant : isCompliant result.toJson = true := rfl
  simp only [render, SentResponse.received, ThreatEngineClient.readBody, hcompliant, if_true, htext,
    if_neg hne, decodeUtf8Strict_encodeText, Option.bind_some, hread]

/-- An error is still one as it is sent. -/
theorem isErrorStatus_render (style : Style) (repr : K → String) {response : Response K}
    (h : isErrorStatus response.status = true) :
    isErrorStatus (render style repr response).status = true := by
  unfold render
  split
  · exact h
  · rfl
  · split
    · split
      · exact h
      · rfl
    · rfl

variable [Field K] [LinearOrder K] [FloorRing K] (config : EngineConfig K)

/-- What the gateway reads of an answer is the result of the signal, or an error. -/
theorem bodyToMono_score (texts : ScalarTexts K) (report : Json K → Json K) (modelLoaded : Bool)
    (body : Json K) :
    ThreatEngineClient.bodyToMono texts (score config report modelLoaded body) =
      if modelLoaded then
        ((scoreSignal config body).map fun result => Signal.value result.toDto).getD .error
      else .error := by
  have hstatus : ∀ status detail, isErrorStatus status = true →
      ThreatEngineClient.bodyToMono texts (httpException status detail) = .error := by
    intro status detail herror
    exact if_pos herror
  unfold score scoreSignal
  cases hvalid : RequestSignal.validate config.texts body with
  | none => cases modelLoaded <;> exact hstatus 422 _ rfl
  | some signal =>
    cases modelLoaded with
    | false => exact hstatus 503 _ rfl
    | true =>
      simp only [Option.bind_eq_bind, Option.bind_some]
      cases hresult : (extractFeatures config.log2 signal).bind config.model.score with
      | none => rfl
      | some result => exact bodyToMono_result texts result

/-- The gateway reads an answer as it was given, if the texts of the scores denote them. -/
theorem bodyToMono_received {texts : ScalarTexts K} {report : Json K → Json K} {modelLoaded : Bool}
    {body : Json K} {style : Style} (hstyle : style.LeavesSurrogates) {decimal : Text → Double K}
    {repr : K → String}
    (h : ∀ result, scoreSignal config body = some result →
      ∀ x ∈ [result.isolationScore, result.xgboostScore, result.finalScore],
        Denoted (ThreatEngineClient.dialect decimal) (withConstants repr) (.finite x)) :
    ThreatEngineClient.bodyToMono texts
        ((render style repr (score config report modelLoaded body)).received decimal) =
      ThreatEngineClient.bodyToMono texts (score config report modelLoaded body) := by
  have herror : ∀ {response : Response K}, isErrorStatus response.status = true →
      ThreatEngineClient.bodyToMono texts ((render style repr response).received decimal) =
        ThreatEngineClient.bodyToMono texts response := by
    intro response hstatus
    exact (if_pos (isErrorStatus_render style repr hstatus)).trans (if_pos hstatus).symm
  unfold scoreSignal at h
  unfold score
  cases hvalid : RequestSignal.validate config.texts body with
  | none => exact herror rfl
  | some signal =>
    cases modelLoaded with
    | false => exact herror rfl
    | true =>
      simp only [Bool.not_true, Bool.false_eq_true, ↓reduceIte]
      cases hresult : (extractFeatures config.log2 signal).bind config.model.score with
      | none => exact herror rfl
      | some result =>
        rw [hvalid] at h
        exact congrArg (ThreatEngineClient.bodyToMono texts) (readBody_render hstyle (h result hresult))

end ApiFirewall.Engine.ScoreEndpoint
