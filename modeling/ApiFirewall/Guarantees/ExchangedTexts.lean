import ApiFirewall.Engine.ScoreText
import ApiFirewall.Guarantees.ScoreAgreement
import ApiFirewall.Guarantees.TelemetryText

/-!
# Scores that are exchanged as texts

Here the services exchange texts: the gateway sets a signal in a style of its own, with the members of its
maps in some order, the engine reads the octets and sets its answer as a text, and the gateway reads that.
Every run of this system is a run of the one in which the services exchange values, so the gateway acts on
the result of the very signal that it has built, or on an error.
-/

namespace ApiFirewall.Guarantees

open ApiFirewall.Wire ApiFirewall.Wire.JsonText ApiFirewall.Gateway ApiFirewall.Gateway.ZeroTrustFilter
open ApiFirewall.Engine ApiFirewall.Engine.KafkaConsumer ApiFirewall.KeyValue ApiFirewall.Reactive
open Deployment

/-- What both services make of texts: the styles in which they set them, of which the gateway's escapes every
surrogate and the engine's leaves them to the encoder, how each reads decimals, how the engine sets them,
and what its framework answers to a body that is no JSON text. -/
structure TextLink (K : Type) extends ScoreLink K where
  bodyStyle : Style
  bodyStyle_encoded : bodyStyle.Encoded
  answerStyle : Style
  answerStyle_leaves : answerStyle.LeavesSurrogates
  engineDecimal : Text → Double K
  gatewayDecimal : Text → Double K
  repr : K → String
  malformed : Bytes → ScoreEndpoint.SentResponse

variable {K : Type} [Field K] [LinearOrder K] [FloorRing K] (d : Deployment K) (link : TextLink K)

/-- What the engine answers to the octets of a request body. -/
def answerOctets (modelLoaded : Bool) (octets : Bytes) : ScoreEndpoint.SentResponse :=
  match Backend.loads link.engineDecimal octets with
  | none => link.malformed octets
  | some body =>
    ScoreEndpoint.render link.answerStyle link.repr
      (ScoreEndpoint.score d.engine link.report modelLoaded body)

/-- The octets that the gateway posts for a signal. -/
def postedOctets (order : MapOrder K) (signal : RequestSignalDTO K) : Bytes :=
  ThreatEngineClient.bodyValue link.bodyStyle d.platform.showDouble (order.apply signal)

/-- How the exchange about a signal ends. -/
def textOutcome (transport : Transport) (order : MapOrder K) (signal : RequestSignalDTO K) :
    Outcome K :=
  match transport with
  | .delivered modelLoaded =>
    let answer := answerOctets d link modelLoaded (postedOctets d link order signal)
    .response (answer.received link.gatewayDecimal)
  | .connectionFailure => .connectionFailure
  | .timeout => .timeout
  | .circuitOpen => .circuitOpen

/-- The reply to a call, where the services exchange texts. -/
def textHandle (env : Env K × Transport × MapOrder K) (now : ℕ) :
    (op : Op K) → Store String → Signal (Res op) × Store String
  | .postScore signal, s =>
    (ThreatEngineClient.exchanged link.texts (textOutcome d link env.2.1 env.2.2 signal), s)
  | op, s => d.handle env.1 now op s

/-- The deployed system whose services exchange texts. -/
def textSystem :
    System (Op K) Res (Store String) (Env K × Transport × MapOrder K) (Label K) Stimulus where
  body := d.body
  spawn := d.spawn
  handle := textHandle d link

/-- The finite doubles of a signal, and of its result, are denoted by the texts that are set for them, and
a surrogate of its names that is one half of a pair stands with the other half as one character. -/
structure ExchangeDenoted (signal : RequestSignalDTO K) : Prop where
  names : ∀ name ∈ signal.names, name.Unpaired
  doubles : ∀ x ∈ signal.doubles, ∀ y, x = .finite y →
    Denoted (KafkaConsumer.dialect link.engineDecimal) (fun x => d.platform.showDouble x) x
  scores : ∀ result, scoreSignal d.engine signal.toJson = some result →
    ∀ x ∈ [result.isolationScore, result.xgboostScore, result.finalScore],
      Denoted (ThreatEngineClient.dialect link.gatewayDecimal) (withConstants link.repr) (.finite x)

variable {d link}

/-- The engine reads the signal that the gateway has set, up to the order of its maps. -/
theorem loads_postedOctets {signal : RequestSignalDTO K} (h : ExchangeDenoted d link signal)
    (hbody : signal.rawBody.Unpaired) (order : MapOrder K) :
    Backend.loads link.engineDecimal (postedOctets d link order signal) =
      some (order.apply signal).toJson := by
  have hreordered := order.reordered signal
  have hordered : (order.apply signal).rawBody.Unpaired := by
    rw [hreordered.others]
    exact hbody
  have hparts := RequestSignalDTO.throughout_toJson Text.unpaired_ofString
    (fun x hx => h.doubles x (hreordered.mem_doubles.mp hx)) hordered
    fun name hname => h.names name (hreordered.mem_names.mp hname)
  exact ScoreEndpoint.loads_encodeText
    (link.bodyStyle_encoded.write (fun x => Text.encoded_ofString _) _)
    (Style.readDocument_write (fun x hx => Denoted.legible hx) hparts)

/-- An exchange of texts ends as the exchange of values. -/
theorem exchanged_textOutcome {signal : RequestSignalDTO K} (h : ExchangeDenoted d link signal)
    (hbody : signal.rawBody.Unpaired) (transport : Transport) (order : MapOrder K) :
    ThreatEngineClient.exchanged link.texts (textOutcome d link transport order signal) =
      ThreatEngineClient.exchanged link.texts
        (scoreOutcome d link.toScoreLink transport signal) := by
  cases transport with
  | delivered modelLoaded =>
    have hscore := scoreSignal_of_reordered d.engine (order.reordered signal)
    have hreceived := @ScoreEndpoint.bodyToMono_received _ _ _ _ d.engine link.texts link.report
      modelLoaded _ _ link.answerStyle_leaves _ _ fun result hresult =>
        h.scores result (hscore.symm.trans hresult)
    simp only [textOutcome, scoreOutcome, ThreatEngineClient.exchanged, answerOctets,
      loads_postedOctets h hbody order]
    rw [hreceived, ScoreEndpoint.bodyToMono_score, ScoreEndpoint.bodyToMono_score, hscore]
  | _ => rfl

variable {P : Action Stimulus (Env K × Transport × MapOrder K) → Prop} {w : State K}

/-- Every run in which the services exchange texts is a run of the deployed system. -/
theorem run_of_textRun (h : (textSystem d link).Run P start w) : d.system.Run Anything start w := by
  refine h.simulated rfl rfl fun env now op s => ?_
  cases op with
  | postScore signal =>
    exact ⟨{ env.1 with
      score := ThreatEngineClient.exchanged link.texts (textOutcome d link env.2.1 env.2.2 signal) },
      rfl⟩
  | _ => exact ⟨env.1, rfl⟩

/-- A signal that such a run posts has a body without surrogates. -/
theorem unpaired_of_posted (h : (textSystem d link).Run P start w) {e : Entry (Op K) Res}
    (he : e ∈ w.log) {signal : RequestSignalDTO K} (hop : e.event.op = .postScore signal) :
    signal.rawBody.Unpaired := by
  obtain ⟨bodyString, hbody⟩ := rawBody_of_carried (run_of_textRun h) he
    (show carriedSignal e.event.op = some signal by rw [hop]; rfl)
  rw [hbody]
  exact Text.unpaired_ofString bodyString

/-- In every run in which the services exchange texts that denote the doubles they are set for: the
run is one in which they exchange values, and every request for a score is answered by an error or by
the result of the signal as the gateway has built it. -/
theorem exchanged_texts_refine (h : (textSystem d link).Run P start w)
    (hdenoted : ∀ e ∈ w.log, ∀ signal, e.event.op = .postScore signal →
      ExchangeDenoted d link signal) :
    (engineSystem d link.toScoreLink).Run (fun _ => True) start w ∧
      ∀ e ∈ w.log, ∀ path signal reply, e.event = ⟨path, .postScore signal, reply⟩ →
        reply = .error ∨
          ∃ result, scoreSignal d.engine signal.toJson = some result ∧
            reply = .value result.toDto := by
  have hgood : ∀ e ∈ w.log, ∀ signal, e.event.op = .postScore signal →
      ExchangeDenoted d link signal ∧ signal.rawBody.Unpaired :=
    fun e he signal hop => ⟨hdenoted e he signal hop, unpaired_of_posted h he hop⟩
  constructor
  · refine h.simulated_on (fun op => ∀ signal, op = .postScore signal →
      ExchangeDenoted d link signal ∧ signal.rawBody.Unpaired) hgood rfl rfl ?_
    intro env now op s hop
    cases op with
    | postScore signal =>
      obtain ⟨hsignal, hbody⟩ := hop signal rfl
      exact ⟨(env.1, env.2.1), Prod.ext (exchanged_textOutcome hsignal hbody _ _) rfl⟩
    | _ => exact ⟨(env.1, env.2.1), rfl⟩
  · intro e he path signal reply hevent
    obtain ⟨-, -, ⟨env, transport, order⟩, s, -, hreply⟩ := h.replies e he
    obtain ⟨hsignal, hbody⟩ := hgood e he signal (congrArg Event.op hevent)
    rw [hevent] at hreply
    change reply = ThreatEngineClient.exchanged link.texts (textOutcome d link transport order signal)
      at hreply
    rw [exchanged_textOutcome hsignal hbody] at hreply
    subst hreply
    cases transport with
    | delivered modelLoaded =>
      simp only [scoreOutcome, ThreatEngineClient.exchanged, ScoreEndpoint.bodyToMono_score]
      cases modelLoaded with
      | false => exact .inl rfl
      | true =>
        cases scoreSignal d.engine signal.toJson with
        | none => exact .inl rfl
        | some result => exact .inr ⟨result, rfl, rfl⟩
    | _ => exact .inl rfl

/-- Both services read and set the texts of the doubles of a first request. -/
def plainLink : TextLink ℚ where
  toScoreLink := sampleLink
  bodyStyle := Style.paired
  bodyStyle_encoded := Style.encoded_paired
  answerStyle := Style.unescaped
  answerStyle_leaves := Style.leavesSurrogates_sparing _
  engineDecimal := plainDecimal
  gatewayDecimal := plainDecimal
  repr := fun x => plainShow (.finite x)
  malformed := fun _ => { status := 422, octets := [] }

/-- The signal is delivered as a text, in the order that its maps have. -/
def posting : Action Stimulus (Env ℚ) → Action Stimulus (Env ℚ × Transport × MapOrder ℚ)
  | .tick n => .tick n
  | .spawn s => .spawn s
  | .call i path env => .call i path (env, .delivered true, ⟨id, RequestSignalDTO.Reordered.refl⟩)
  | .join i path => .join i path
  | .cancel i => .cancel i

/-- A run in which a login with a character beyond 16 bits is scored through texts, and blocked. -/
def postedLogin : State ℚ :=
  (textSystem plain plainLink).after
    ((Action.spawn (Stimulus.request (loginWith "😀")) ::
      callTop 2 0 sampleEnv ++ callCounters true 0 sampleEnv ++ callTop 8 0 sampleEnv).map posting)
    start

/-- The doubles have texts that denote them. -/
def arePlain (xs : List (Double ℚ)) : Bool :=
  xs.all fun x => x = .finite 0 || x = .finite 1 || x = .finite 2

/-- Such doubles are denoted. -/
theorem denoted_of_arePlain {xs : List (Double ℚ)} (h : arePlain xs = true) :
    ∀ x ∈ xs, x = .finite 0 ∨ x = .finite 1 ∨ x = .finite 2 := by
  simpa [arePlain, or_assoc] using h

/-- A signal that the call posts has no numeric fields and such doubles, and so has its result. -/
def postsPlain : Op ℚ → Bool
  | .postScore signal =>
    signal.names.isEmpty && arePlain signal.doubles && (scoreSignal plain.engine signal.toJson).all fun result =>
      arePlain [.finite result.isolationScore, .finite result.xgboostScore,
        .finite result.finalScore]
  | _ => true

/-- The texts of such an exchange denote its doubles. -/
theorem exchangeDenoted_of_postsPlain {signal : RequestSignalDTO ℚ}
    (h : postsPlain (.postScore signal) = true) : ExchangeDenoted plain plainLink signal := by
  obtain ⟨hparts, hresult⟩ := Bool.and_eq_true_iff.mp h
  obtain ⟨hnames, hsignal⟩ := Bool.and_eq_true_iff.mp hparts
  refine ⟨fun name hname => ?_, fun x hx y _ => denoted_plain (denoted_of_arePlain hsignal x hx), ?_⟩
  · rw [List.isEmpty_iff.mp hnames] at hname
    cases hname
  · intro result hscored x hx
    rw [hscored, Option.all_some] at hresult
    obtain ⟨hdecimal, hvalue⟩ := denoted_plain
      (denoted_of_arePlain hresult (.finite x) (by simpa using hx))
    exact ⟨hdecimal, hvalue⟩

/-- The login is answered by the result of its signal, which blocks it. -/
theorem postedLogin_result : ∃ signal result path reply,
    (⟨path, .postScore signal, reply⟩ : Event (Op ℚ) Res) ∈ postedLogin.events 0 ∧
      scoreSignal plain.engine signal.toJson = some result ∧ reply = .value result.toDto ∧
      result.decision.text = "BLOCK" := by
  obtain ⟨hrun, hposts, hscore⟩ :
      (textSystem plain plainLink).Run (fun _ => True) start postedLogin ∧
        (postedLogin.log.all fun e => postsPlain e.event.op) = true ∧
          ((postedLogin.events 0)[10]?).bind scoreOf = some blockingScore :=
    System.Run.after_and (by decide +kernel) fun _ _ => trivial
  have hdenoted : ∀ e ∈ postedLogin.log, ∀ signal, e.event.op = .postScore signal →
      ExchangeDenoted plain plainLink signal := by
    intro e he signal hop
    have hplain := List.all_eq_true.mp hposts e he
    rw [hop] at hplain
    exact exchangeDenoted_of_postsPlain hplain
  obtain ⟨ev, hev, hscore⟩ := Option.bind_eq_some_iff.mp hscore
  obtain ⟨path, signal, reply, rfl, hscored⟩ := postScore_of_scoreOf hscore
  have hmem := List.mem_of_getElem? hev
  obtain ⟨e, he, -, hevent⟩ := mem_eventsOf.mp hmem
  rcases (exchanged_texts_refine hrun hdenoted).2 e he path signal reply hevent with
    rfl | ⟨result, hresult, rfl⟩
  · cases hscored
  · refine ⟨signal, result, path, _, hmem, hresult, rfl, ?_⟩
    have hdto : result.toDto = blockingScore := Option.some.inj hscored
    exact Option.some.inj (congrArg ScoreResponseDTO.decision hdto)

end ApiFirewall.Guarantees
