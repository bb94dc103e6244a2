import ApiFirewall.ConsumerRuns
import ApiFirewall.Engine.ScoreEndpoint
import ApiFirewall.Guarantees.DeliveredSignals
import ApiFirewall.Guarantees.IndexableClients
import ApiFirewall.Wire.JsonText

/-!
# Agreement of both scores of a request

A request is scored twice: by the endpoint that the gateway asks, and by the consumer that reads
its envelope. Here the endpoint answers from the same models as the consumer, and only the
transport between the services is left open. Every run of this system is a run of the deployed
one, whose engine can answer anything. The scores agree as long as the names of the numeric fields stay
distinct in the record, where question marks stand for the surrogates in them; the text of the call
escapes these.
-/

namespace ApiFirewall.Guarantees

open ApiFirewall.Wire ApiFirewall.Gateway ApiFirewall.Gateway.ZeroTrustFilter
open ApiFirewall.Engine ApiFirewall.Engine.KafkaConsumer ApiFirewall.KeyValue ApiFirewall.Reactive
open Deployment

/-- What becomes of a request to the engine on its way. -/
inductive Transport where
  | delivered (modelLoaded : Bool)
  | connectionFailure
  | timeout
  | circuitOpen
  deriving DecidableEq

/-- The reader of the gateway, and the report of the engine's validator. -/
structure ScoreLink (K : Type) where
  texts : ScalarTexts K
  report : Json K → Json K

variable {K : Type} [Field K] [LinearOrder K] [FloorRing K] (d : Deployment K) (link : ScoreLink K)

/-- How the exchange about a signal ends. -/
def scoreOutcome (transport : Transport) (signal : RequestSignalDTO K) : Outcome K :=
  match transport with
  | .delivered modelLoaded =>
    .response (ScoreEndpoint.score d.engine link.report modelLoaded signal.toJson)
  | .connectionFailure => .connectionFailure
  | .timeout => .timeout
  | .circuitOpen => .circuitOpen

/-- The reply to a call, where the engine answers for itself. -/
def engineHandle (env : Env K × Transport) (now : ℕ) :
    (op : Op K) → Store String → Signal (Res op) × Store String
  | .postScore signal, s =>
    (ThreatEngineClient.exchanged link.texts (scoreOutcome d link env.2 signal), s)
  | op, s => d.handle env.1 now op s

/-- The deployed system with an engine that answers for itself. -/
def engineSystem : System (Op K) Res (Store String) (Env K × Transport) (Label K) Stimulus where
  body := d.body
  spawn := d.spawn
  handle := engineHandle d link

variable {d link} {P : Action Stimulus (Env K × Transport) → Prop} {w : State K}

/-- Every run in which the engine answers for itself is a run of the deployed system. -/
theorem run_of_engineRun (h : (engineSystem d link).Run P start w) :
    d.system.Run Anything start w := by
  refine h.simulated rfl rfl fun env now op s => ?_
  cases op with
  | postScore signal =>
    exact ⟨{ env.1 with
      score := ThreatEngineClient.exchanged link.texts (scoreOutcome d link env.2 signal) }, rfl⟩
  | _ => exact ⟨env.1, rfl⟩

/-- A score other than the one that stands for a failed call is the consumer's result. -/
theorem result_of_scored (h : (engineSystem d link).Run P start w) {i : ℕ} {path : List Branch}
    {signal : RequestSignalDTO K} {reply : Signal (ScoreResponseDTO K)}
    (hmem : ⟨path, .postScore signal, reply⟩ ∈ w.events i) {dto : ScoreResponseDTO K}
    (hscored : scored reply = some dto) (hdecision : dto.decision ≠ some "UNSCORED") :
    ∃ result, scoreSignal d.engine signal.toJson = some result ∧ dto = result.toDto := by
  obtain ⟨e, he, -, hevent⟩ := mem_eventsOf.mp hmem
  obtain ⟨-, -, ⟨env, transport⟩, s, -, hreply⟩ := h.replies e he
  rw [hevent] at hreply
  change reply = ThreatEngineClient.exchanged link.texts (scoreOutcome d link transport signal)
    at hreply
  subst hreply
  cases transport with
  | delivered modelLoaded =>
    cases hbody : ThreatEngineClient.bodyToMono link.texts
        (ScoreEndpoint.score d.engine link.report modelLoaded signal.toJson) with
    | value dto' =>
      obtain rfl : dto' = dto := by
        simpa [scoreOutcome, ThreatEngineClient.exchanged, hbody, scored] using hscored
      exact ScoreEndpoint.result_of_bodyToMono d.engine hbody
    | empty => simp [scoreOutcome, ThreatEngineClient.exchanged, hbody, scored] at hscored
    | error =>
      obtain rfl : ThreatEngineClient.unscored = dto := by
        simpa [scoreOutcome, ThreatEngineClient.exchanged, hbody, scored] using hscored
      exact absurd rfl hdecision
  | _ =>
    obtain rfl : ThreatEngineClient.unscored = dto := Option.some.inj hscored
    exact absurd rfl hdecision

omit [Field K] [LinearOrder K] [FloorRing K] in
/-- The message of a thread carries the envelope of a request. -/
def CarriesEnvelope (w : State K) (i k : ℕ) (payload : Json K) : Prop :=
  ∃ source e, w.log[source]? = some e ∧ e.thread = i ∧
    w.labels[k]? = some (.message source payload)

/-- A message with the envelope of a request carries the very signal whose score the request has asked for,
and that can be encoded if its names stay apart. -/
theorem received_of_carries {P : Action Stimulus (Env K) → Prop} (hrun : d.system.Run P start w) {i : ℕ}
    {path : List Branch} {signal : RequestSignalDTO K} {reply : Signal (ScoreResponseDTO K)}
    (hmem : ⟨path, .postScore signal, reply⟩ ∈ w.events i) {k : ℕ} {payload : Json K}
    (hk : CarriesEnvelope w i k payload) :
    ∃ envelope : Envelope K, payload = envelope.received d.mapOrder ∧ envelope.signal = signal ∧
      (signal.NamesApart → signal.Encodable) := by
  obtain ⟨source, e, he, rfl, hlabel⟩ := hk
  obtain ⟨e', record, he', hrecord, rfl⟩ := source_of_message hrun hlabel
  obtain rfl := Option.some.inj (he.symm.trans he')
  -- both calls belong to one request, which carries one signal
  obtain ⟨entry, hentry, hthread, hevent⟩ := mem_eventsOf.mp hmem
  have hencodable : signal.NamesApart → signal.Encodable :=
    encodable_of_carried hrun hentry (by rw [hevent]; rfl)
  obtain ⟨l, hl, hcall⟩ := labelCall_of_log hrun hentry
  rw [hthread, hevent] at *
  have hsame : record.value.signal = signal := by
    cases l with
    | message source' payload' => cases hcall
    | request exchange =>
      obtain ⟨m', hprogress⟩ := progress hrun hl
      refine (carried_eq hprogress hmem
        (mem_eventsOf.mpr ⟨e, List.mem_of_getElem? he, rfl, rfl⟩) rfl ?_).symm
      rw [op_of_sentRecord hrecord]
      rfl
  exact ⟨record.value, rfl, hsame, hencodable⟩

/-- The score that the gateway acts on and the audit event tell the same. -/
structure SameScores (dto : ScoreResponseDTO K) (event : AuditEvent K) : Prop where
  isolationScore : dto.isolationScore = .finite event.isolationScore
  xgboostScore : dto.xgboostScore = .finite event.xgboostScore
  finalScore : dto.finalScore = .finite event.finalScore
  decision : dto.decision = some event.decision
  reason : dto.reason = some event.reason

/-- The message of an envelope is scored as the signal that it carries. -/
theorem scoredMessage_received (config : EngineConfig K) (order : MapOrder K) (envelope : Envelope K) :
    ∃ members, scoredMessage config (envelope.received order) =
      (scoreSignal config (envelope.signal.received order)).map (members, ·) := by
  obtain ⟨members, hmembers, hclient, hsignal⟩ := received_members order envelope
  have hencodable : ∀ result, Engine.KafkaConsumer.Encodable config (clientIpOf members) result := by
    intro result _
    rw [hclient]
    exact congrArg Option.isSome (Text.toString?_ofString envelope.clientIp)
  refine ⟨members, ?_⟩
  rw [hmembers, scoredMessage, hsignal, Option.bind_some]
  cases scoreSignal config (envelope.signal.received order) with
  | none => rfl
  | some result => simp [Option.filter, hencodable]

/-- The event that is derived from an envelope tells the result of its signal. -/
theorem sameScores_of_envelope {envelope : Envelope K} {result : ScoreResult K}
    (h : scoreSignal d.engine (envelope.signal.received d.mapOrder) = some result) :
    ∃ event, auditOf d.engine (envelope.received d.mapOrder) = some event ∧
      SameScores result.toDto event := by
  obtain ⟨members, hscored⟩ := scoredMessage_received d.engine d.mapOrder envelope
  refine ⟨auditEvent members result, ?_, ⟨rfl, rfl, rfl, rfl, rfl⟩⟩
  rw [auditOf, hscored, h]
  rfl

/-- The message has an audit event, it tells the same as the score, and no other event is ever sent for
the message. -/
def AgreesWith (d : Deployment K) (w : State K) (k : ℕ) (payload : Json K)
    (dto : ScoreResponseDTO K) : Prop :=
  ∃ event, auditOf d.engine payload = some event ∧ SameScores dto event ∧
    ∀ path topic event' reply, ⟨path, .sendAudit topic event', reply⟩ ∈ w.events k → event' = event

/-- In every run in which the engine answers for itself, a request whose score is not the one that
stands for a failed call is scored the same by the consumer of its envelope, if the names of its numeric
fields stay distinct in the record: the message has an audit event, it tells the same as the score, and no
other event is ever sent for it. -/
theorem scores_agree (hrun : (engineSystem d link).Run P start w) {i : ℕ} {path : List Branch}
    {signal : RequestSignalDTO K} {reply : Signal (ScoreResponseDTO K)}
    (hmem : ⟨path, .postScore signal, reply⟩ ∈ w.events i) {dto : ScoreResponseDTO K}
    (hscored : scored reply = some dto) (hdecision : dto.decision ≠ some "UNSCORED")
    (hnames : signal.NamesApart) {k : ℕ} {payload : Json K} (hk : CarriesEnvelope w i k payload) :
    AgreesWith d w k payload dto := by
  have hdeployed := run_of_engineRun hrun
  obtain ⟨result, hresult, rfl⟩ := result_of_scored hrun hmem hscored hdecision
  obtain ⟨envelope, rfl, rfl, hencodable⟩ := received_of_carries hdeployed hmem hk
  rw [← scoreSignal_received d.engine d.mapOrder (hencodable hnames)] at hresult
  obtain ⟨event, haudit, hscores⟩ := sameScores_of_envelope (d := d) hresult
  obtain ⟨source, e, -, -, hlabel⟩ := hk
  refine ⟨event, haudit, hscores, fun path' topic event' reply' hsent => ?_⟩
  exact Option.some.inj ((audit_of_message hdeployed hlabel hsent).symm.trans haudit)

/-- The sample reader, and a validator that repeats what it rejects. -/
def sampleLink : ScoreLink ℚ where
  texts := sampleTexts
  report := id

/-- The engine answers whatever is asked of it. -/
def answering : Action Stimulus (Env ℚ) → Action Stimulus (Env ℚ × Transport)
  | .tick n => .tick n
  | .spawn stimulus => .spawn stimulus
  | .call i path env => .call i path (env, .delivered true)
  | .join i path => .join i path
  | .cancel i => .cancel i

/-- A deployment with a reader of strict JSON, whose second model tells an anomaly of two. -/
def telling : Deployment ℚ :=
  { sample with
    platform := { sample.platform with readMap := fun text => JsonText.readObject ⟨false, fun _ => .nan⟩ text }
    engine := { sample.engine with
      model := { sample.engine.model with
        predictProba := fun vector =>
          some (if featureOf vector "price_or_qty_anomaly" = some (.finite 2) then 1 else 0) } } }

/-- A login with a body. -/
def loginWith (body : String) : Exchange :=
  { sampleRequest "/api/auth/login" "10.0.0.1" with method := "POST", body := [encodeUtf8 body] }

/-- A run in which the engine scores such a login, and the consumer gets its envelope. -/
def scoredLogin (body : String) : State ℚ :=
  (engineSystem telling sampleLink).after
    ((Action.spawn (Stimulus.request (loginWith body)) ::
      callTop 2 0 sampleEnv ++ callCounters true 0 sampleEnv ++ callTop 8 0 sampleEnv ++
      [Action.spawn (Stimulus.message 9)]).map answering) start

/-- The score that the filter acts on after a call. -/
def scoreOf : Event (Op K) Res → Option (ScoreResponseDTO K)
  | ⟨_, .postScore _, reply⟩ => scored reply
  | _ => none

omit [LinearOrder K] [FloorRing K] in
/-- Only a call that asks for a score yields one. -/
theorem postScore_of_scoreOf {e : Event (Op K) Res} {dto : ScoreResponseDTO K}
    (h : scoreOf e = some dto) :
    ∃ path signal reply, e = ⟨path, .postScore signal, reply⟩ ∧ scored reply = some dto := by
  unfold scoreOf at h
  split at h
  · exact ⟨_, _, _, rfl, h⟩
  · simp at h

omit [Field K] [LinearOrder K] [FloorRing K] in
/-- The thread works on a message that an entry of the log has handed over. -/
def messageAt (w : State K) (k : ℕ) : Option (ℕ × Json K) :=
  match w.labels[k]? with
  | some (.message source payload) => (w.log[source]?).map fun e => (e.thread, payload)
  | _ => none

omit [Field K] [LinearOrder K] [FloorRing K] in
/-- Such a message carries the envelope of a request. -/
theorem carriesEnvelope_of_messageAt {i k : ℕ} {payload : Json K}
    (h : messageAt w k = some (i, payload)) : CarriesEnvelope w i k payload := by
  unfold messageAt at h
  split at h
  · rename_i source payload' hlabel
    obtain ⟨e, he, heq⟩ := Option.map_eq_some_iff.mp h
    obtain ⟨rfl, rfl⟩ := Prod.mk.inj heq
    exact ⟨source, e, he, rfl, hlabel⟩
  · cases h

/-- A body with a name that is an unpaired surrogate, next to another name. -/
def apartBody : String := "\x7b\"\\ud800\":5000000000,\"qty\":1\x7d"

/-- Both scores block a login with that body. -/
theorem scoredLogin_agrees : ∃ payload dto, CarriesEnvelope (scoredLogin apartBody) 0 1 payload ∧
    AgreesWith telling (scoredLogin apartBody) 1 payload dto ∧ dto.decision = some "BLOCK" := by
  obtain ⟨hrun, hblocked, hnames, hcarried⟩ :
      (engineSystem telling sampleLink).Run (fun _ => True) start (scoredLogin apartBody) ∧
      (((scoredLogin apartBody).events 0)[10]?.bind scoreOf).map (fun dto => dto.decision) =
        some (some "BLOCK") ∧
      ((scoredLogin apartBody).events 0)[10]?.all
        (fun e => (carriedSignal e.op).all fun signal => signal.NamesApart) = true ∧
      (messageAt (scoredLogin apartBody) 1).map Prod.fst = some 0 :=
    System.Run.after_and (by decide +kernel) fun _ _ => trivial
  obtain ⟨dto, hdto, hdecision⟩ := Option.map_eq_some_iff.mp hblocked
  obtain ⟨e, he, hscore⟩ := Option.bind_eq_some_iff.mp hdto
  obtain ⟨path, signal, reply, rfl, hscored⟩ := postScore_of_scoreOf hscore
  rw [he] at hnames
  obtain ⟨⟨i, payload⟩, hmessage, hi⟩ := Option.map_eq_some_iff.mp hcarried
  obtain rfl : i = 0 := hi
  have hcarries := carriesEnvelope_of_messageAt hmessage
  exact ⟨payload, dto, hcarries, scores_agree hrun (List.mem_of_getElem? he) hscored
    (by rw [hdecision]; decide) (of_decide_eq_true hnames) hcarries, hdecision⟩

/-- A body with two names that become the same one in the record. -/
def mergedBody : String := "\x7b\"\\ud800\":5000000000,\"?\":1\x7d"

/-- The engine's answer blocks a login with that body, and the consumer allows it. -/
theorem mergedLogin_disagrees :
    ¬ ∀ (d : Deployment ℚ) (link : ScoreLink ℚ) (w : State ℚ),
      (engineSystem d link).Run (fun _ => True) start w → ∀ (i : ℕ) (path : List Branch)
      (signal : RequestSignalDTO ℚ) (reply : Signal (ScoreResponseDTO ℚ)),
      ⟨path, .postScore signal, reply⟩ ∈ w.events i → ∀ dto, scored reply = some dto →
      dto.decision ≠ some "UNSCORED" → ∀ k payload, CarriesEnvelope w i k payload →
        AgreesWith d w k payload dto := by
  intro h
  obtain ⟨hrun, hblocked, hallowed⟩ :
      (engineSystem telling sampleLink).Run (fun _ => True) start (scoredLogin mergedBody) ∧
      (((scoredLogin mergedBody).events 0)[10]?.bind scoreOf).map (fun dto => dto.decision) =
        some (some "BLOCK") ∧
      (messageAt (scoredLogin mergedBody) 1).map
        (fun m => (m.1, (auditOf telling.engine m.2).map fun event => event.decision)) =
          some (0, some "ALLOW") :=
    System.Run.after_and (by decide +kernel) fun _ _ => trivial
  obtain ⟨dto, hdto, hdecision⟩ := Option.map_eq_some_iff.mp hblocked
  obtain ⟨e, he, hscore⟩ := Option.bind_eq_some_iff.mp hdto
  obtain ⟨path, signal, reply, rfl, hscored⟩ := postScore_of_scoreOf hscore
  obtain ⟨⟨i, payload⟩, hmessage, hasked⟩ := Option.map_eq_some_iff.mp hallowed
  obtain ⟨rfl, haudit⟩ := Prod.mk.inj hasked
  obtain ⟨event, hevent, hscores, -⟩ := h telling sampleLink _ hrun 0 path signal reply
    (List.mem_of_getElem? he) dto hscored (by rw [hdecision]; decide) 1 payload
    (carriesEnvelope_of_messageAt hmessage)
  rw [hevent, Option.map_some, Option.some.injEq] at haudit
  have hsame := hdecision.symm.trans hscores.decision
  rw [haudit] at hsame
  exact absurd hsame (by decide)

end ApiFirewall.Guarantees
