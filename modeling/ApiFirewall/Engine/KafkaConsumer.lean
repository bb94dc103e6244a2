import ApiFirewall.Gateway.Services

/-!
# The consumer of request telemetry

What the engine does with one message of the request stream: validate its signal, score it,
block the client if the decision says so, and publish the audit event. Any exception on the way
is logged and ends the work on this message, so the stream goes on with the next one.
-/

namespace ApiFirewall.Engine

open ApiFirewall.Wire ApiFirewall.KeyValue ApiFirewall.Reactive

/-- What the engine is deployed with: library functions, the models, and its configuration. -/
structure EngineConfig (K : Type) where
  texts : NumberTexts K
  log2 : K → K
  model : EnsembleThreatModel K
  /-- The text of a message member that is not itself a text. -/
  showValue : Json K → String
  blocklistTtlSeconds : ℤ

namespace KafkaConsumer

/-- The topic of audit events. -/
def auditTopic : String := "api.audit.events"

/-- The default client of a message. -/
def unknownClient : String := "unknown"

variable {K : Type}

/-- The member of a message, null if there is none. -/
def getMember (members : List (Text × Json K)) (name : Text) : Json K :=
  (member members name).getD .null

/-- The client of a message. -/
def clientIpOf (members : List (Text × Json K)) : Json K :=
  (member members "client_ip").getD (.str unknownClient)

/-- The client is known. -/
def isKnown (clientIp : Json K) : Bool :=
  match clientIp with
  | .str s => s ≠ unknownClient
  | _ => true

/-- A member of a message inside a text. -/
def formatMember (config : EngineConfig K) (value : Json K) : Text :=
  match value with
  | .str s => s
  | other => config.showValue other

/-- The audit event of a message. -/
def auditEvent (members : List (Text × Json K)) (result : ScoreResult K) : AuditEvent K where
  requestId := getMember members "request_id"
  clientIp := clientIpOf members
  endpoint := getMember members "endpoint"
  method := getMember members "method"
  timestamp := getMember members "timestamp"
  isolationScore := result.isolationScore
  xgboostScore := result.xgboostScore
  finalScore := result.finalScore
  decision := result.decision.text
  reason := result.reason

variable [Field K] [LinearOrder K] [FloorRing K] (config : EngineConfig K)

/-- Validate and score the signal of a message. -/
def scoreSignal (signal : Json K) : Option (ScoreResult K) := do
  let signal ← RequestSignal.validate config.texts signal
  let vector ← extractFeatures config.log2 signal
  config.model.score vector

/-- The decision says that the client of a message goes on the blocklist. -/
def AsksBlock (clientIp : Json K) (result : ScoreResult K) : Prop :=
  result.decision = .block ∧ isKnown clientIp = true

instance (clientIp : Json K) (result : ScoreResult K) : Decidable (AsksBlock clientIp result) :=
  inferInstanceAs (Decidable (result.decision = .block ∧ isKnown clientIp = true))

/-- Put the client of a message on the blocklist, if the decision says so. A client that the driver
cannot encode raises an exception before anything is sent. -/
def blockClient (clientIp : Json K) (result : ScoreResult K) : Program K Unit :=
  if AsksBlock clientIp result then
    match (formatMember config clientIp).toString? with
    | none => .done .error
    | some client =>
      (redis (.set (Gateway.RedisStateService.blocklistKey client) result.reason
        (Gateway.seconds config.blocklistTtlSeconds))).thenReturn ()
  else .just ()

/-- The work on one message. -/
def processMessage (payload : Json K) : Program K Unit :=
  match payload with
  | .obj members =>
    match (member members "signal").bind (scoreSignal config) with
    | none => .just ()
    | some result =>
      ((blockClient config (clientIpOf members) result).andThen
        (Mono.await (Op.sendAudit auditTopic (auditEvent members result)))).onErrorResume (.just ())
  | _ => .just ()

/-- The calls of the work on one message. -/
inductive MessageCall (payload : Json K) : Op K → Prop where
  | block {members : List (Text × Json K)} {result : ScoreResult K} {client : String}
      (hpayload : payload = .obj members)
      (hscore : (member members "signal").bind (scoreSignal config) = some result)
      (hblock : AsksBlock (clientIpOf members) result)
      (hclient : formatMember config (clientIpOf members) = client) :
      MessageCall payload (.redis (.set (Gateway.RedisStateService.blocklistKey client) result.reason
        (Gateway.seconds config.blocklistTtlSeconds)))
  | sendAudit (topic : String) (event : AuditEvent K) : MessageCall payload (.sendAudit topic event)

/-- Processing a message performs its calls. -/
theorem processMessage_emits (payload : Json K) :
    (processMessage config payload).Emits (MessageCall config payload) := by
  unfold processMessage
  split
  · rename_i members
    split
    · trivial
    · rename_i result hscore
      refine Mono.emits_onSignal (Mono.emits_onSignal ?_ fun s => ?_) fun s => by cases s <;> trivial
      · unfold blockClient
        split
        · rename_i hblock
          split
          · trivial
          · rename_i client hclient
            have hcall := Text.toString?_eq_some.mp hclient
            exact Mono.emits_onSignal ⟨.block rfl hscore hblock hcall, fun _ => trivial⟩
              fun s => by cases s <;> trivial
        · trivial
      · cases s <;> first | trivial | exact ⟨.sendAudit _ _, fun _ => trivial⟩
  · trivial

end KafkaConsumer

end ApiFirewall.Engine
