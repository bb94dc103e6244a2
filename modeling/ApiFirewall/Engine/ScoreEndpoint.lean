import ApiFirewall.Engine.ConsumeLoop
import ApiFirewall.Gateway.ScoreExchange

/-!
# The scoring endpoint

The engine answers a posted signal with its scores, or with an error status: the signal is not
valid, the models are not loaded, or scoring has raised an exception. Where it answers with scores,
the gateway reads the result that the consumer of the same signal gets.
-/

namespace ApiFirewall.Engine

open ApiFirewall.Wire ApiFirewall.Gateway ApiFirewall.Reactive

variable {K : Type}

/-- The result of scoring as the engine writes it. -/
def ScoreResult.toJson (result : ScoreResult K) : Json K :=
  .obj
    [("isolation_score", .real (.finite result.isolationScore)),
     ("xgboost_score", .real (.finite result.xgboostScore)),
     ("final_score", .real (.finite result.finalScore)),
     ("decision", .str result.decision.text),
     ("reason", .str result.reason)]

/-- The result of scoring as the gateway reads it. -/
def ScoreResult.toDto (result : ScoreResult K) : ScoreResponseDTO K where
  isolationScore := .finite result.isolationScore
  xgboostScore := .finite result.xgboostScore
  finalScore := .finite result.finalScore
  decision := some result.decision.text
  reason := some result.reason

/-- The gateway reads what the engine writes. -/
theorem readScoreResponse_toJson [Field K] (texts : ScalarTexts K) (result : ScoreResult K) :
    ThreatEngineClient.readScoreResponse texts result.toJson = .value result.toDto := by
  simp [ThreatEngineClient.readScoreResponse, ScoreResult.toJson, ThreatEngineClient.setMember,
    ThreatEngineClient.readDouble, ThreatEngineClient.readString, ZeroTrustFilter.numberValue,
    ScoreResult.toDto]

namespace ScoreEndpoint

/-- An error response tells its detail. -/
def httpException (status : ℕ) (detail : Json K) : Response K :=
  { status, body := .json (.obj [("detail", detail)]) }

variable [Field K] [LinearOrder K] [FloorRing K] (config : EngineConfig K)

/-- Answer a posted signal; the body is validated before the handler runs. The validator reports
what is wrong with a body that it rejects. -/
def score (report : Json K → Json K) (modelLoaded : Bool) (body : Json K) : Response K :=
  match RequestSignal.validate config.texts body with
  | none => httpException 422 (report body)
  | some signal =>
    if !modelLoaded then httpException 503 (.str "Model not loaded yet")
    else match (extractFeatures config.log2 signal).bind config.model.score with
      | none => { status := 500, body := .unreadable }
      | some result => { status := 200, body := .json result.toJson }

omit [LinearOrder K] [FloorRing K] in
/-- A response that tells a result is read as the result. -/
theorem bodyToMono_result (texts : ScalarTexts K) (result : ScoreResult K) :
    ThreatEngineClient.bodyToMono texts { status := 200, body := .json result.toJson } =
      .value result.toDto := readScoreResponse_toJson texts result

/-- What the gateway reads of an answer that is not an error is the consumer's result. -/
theorem result_of_bodyToMono {texts : ScalarTexts K} {report : Json K → Json K}
    {modelLoaded : Bool} {body : Json K} {dto : ScoreResponseDTO K}
    (h : ThreatEngineClient.bodyToMono texts (score config report modelLoaded body) = .value dto) :
    ∃ result, KafkaConsumer.scoreSignal config body = some result ∧ dto = result.toDto := by
  unfold score at h
  split at h
  · simp [httpException, ThreatEngineClient.bodyToMono, isErrorStatus] at h
  · rename_i signal hvalid
    split at h
    · simp [httpException, ThreatEngineClient.bodyToMono, isErrorStatus] at h
    · split at h
      · simp [ThreatEngineClient.bodyToMono, isErrorStatus] at h
      · rename_i result hresult
        refine ⟨result, ?_, ?_⟩
        · rw [KafkaConsumer.scoreSignal, hvalid]
          exact hresult
        · exact (Signal.value.inj ((bodyToMono_result texts result).symm.trans h)).symm

end ScoreEndpoint

end ApiFirewall.Engine
