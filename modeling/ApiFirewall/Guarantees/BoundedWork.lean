import ApiFirewall.Deployment
import ApiFirewall.Reactive.Steps

/-!
# Bounded work

A request takes at most eighteen steps and a message at most two, however the calls end and however
the steps of all threads interleave. No thread waits for another: in every reachable state each of
them can take the rest of its steps alone.
-/

namespace ApiFirewall.Guarantees

open ApiFirewall.Gateway ApiFirewall.Gateway.ZeroTrustFilter ApiFirewall.Engine
open ApiFirewall.KeyValue ApiFirewall.Reactive ApiFirewall.Reactive.Mono Deployment

section Filter

variable {K : Type}

/-- A rejection takes two steps more than what follows its head. -/
theorem within_rejectHead {status : ℕ} {next : Program K Unit} {n : ℕ} (h : next.Within n) :
    (rejectHead status next).Within (n + 2) := by
  have hheader : ((await (Op.addHeader "Content-Type" (some "application/json"))).flatMap
      fun _ => next : Program K Unit).Within (n + 1) :=
    within_flatMap (within_await _) (fun _ => h) (by omega)
  exact within_flatMap (within_await _) (fun _ => hheader) (by omega)

/-- A rejection takes three steps. -/
theorem within_reject (status : ℕ) (reason : String) :
    (reject status reason : Program K Unit).Within 3 := within_rejectHead (within_await _)

/-- Authentication takes one step. -/
theorem within_authenticate (exchange : Exchange) :
    (authenticate exchange : Program K (Option Claims)).Within 1 := by
  unfold authenticate JwtAuthValidator.validate
  split
  · exact within_just _ _
  · split
    · exact within_just _ _
    · refine within_flatMap (within_await _) (fun verdict => ?_) (Nat.le_refl (1 + 0))
      cases verdict <;> exact within_just _ 0

/-- A window counter takes two steps. -/
theorem within_incrementWindowCounter (clientIp endpoint : String) (window : ℕ) :
    (RedisStateService.incrementWindowCounter clientIp endpoint window : Program K ℤ).Within 2 := by
  refine within_flatMap (within_await _) (fun count => ?_) (Nat.le_refl (1 + 1))
  split
  · exact within_thenReturn (within_await _) count
  · exact within_just _ _

/-- The streak counter takes two steps. -/
theorem within_incrementFailedAuthStreak (identity : String) :
    (RedisStateService.incrementFailedAuthStreak identity : Program K ℤ).Within 2 :=
  within_flatMap (within_await _) (fun count => within_thenReturn (within_await _) count)
    (Nat.le_refl (1 + 1))

/-- Publishing takes two steps. -/
theorem within_publishAsync (clientIp method endpoint : String) (signal : RequestSignalDTO K) :
    (KafkaRequestPublisher.publishAsync clientIp method endpoint signal).Within 2 := by
  refine within_onErrorResume ?_ ()
  exact within_flatMap (within_await _) (fun _ => within_await _) (Nat.le_refl (1 + 1))

/-- Reading the body takes one step. -/
theorem within_joinBody (body : List Bytes) : (joinBody body : Program K Bytes).Within 1 := by
  refine within_flatMap (within_await _) (fun buffers => ?_) (Nat.le_refl (1 + 0))
  split
  · exact within_done _ _
  · exact within_just _ _

/-- Writing a block takes one step. -/
theorem within_blockImmediately (properties : SecurityProperties K) (clientIp : String)
    (reason : Option String) :
    (RedisStateService.blockImmediately properties clientIp reason).Within 1 := by
  cases reason with
  | none => exact within_done _ _
  | some text => exact within_await _

variable (platform : Platform K) (properties : SecurityProperties K)

/-- Acting on a score takes four steps. -/
theorem within_enforce (exchange : Exchange) (clientIp : String) (result : ScoreResponseDTO K) :
    (enforce platform properties exchange clientIp result).Within 4 := by
  unfold enforce
  split
  · exact within_rejectHead
      (within_andThen (within_blockImmediately properties clientIp _) (within_await _)
        (Nat.le_refl (1 + 1)))
  · have htag : (tagRisk platform result).Within 2 :=
      within_flatMap (within_await _) (fun _ => within_await _) (Nat.le_refl (1 + 1))
    exact within_flatMap htag (fun _ => within_await _) (Nat.le_succ (2 + 1))

variable [Field K]

/-- Routing takes five steps. -/
theorem within_route (exchange : Exchange) (clientIp path : String) (rate10s : ℤ)
    (signal : RequestSignalDTO K) :
    (route platform properties exchange clientIp path rate10s signal).Within 5 := by
  unfold route
  split
  · have hscore : (ThreatEngineClient.score signal).Within 1 :=
      within_onErrorResume (within_await _) _
    exact within_flatMap hscore (within_enforce platform properties exchange clientIp)
      (Nat.le_refl (1 + 4))
  · exact (within_await _).mono (by decide)

/-- The three counters take seven steps; the signal, its publication and the decision take eight. -/
theorem within_continuePipeline (exchange : Exchange) (clientIp method path : String)
    (claims : Option Claims) (bodyString : String) :
    (continuePipeline platform properties exchange clientIp method path claims bodyString).Within
      15 := by
  have hcounts : (Mono.zip (RedisStateService.incrementWindowCounter clientIp path (seconds 10))
      (RedisStateService.incrementWindowCounter clientIp path (seconds 60))
      ((RedisStateService.incrementFailedAuthStreak (identityKey claims clientIp)).defaultIfEmpty 0)
      Mono.done : Program K (ℤ × ℤ × ℤ)).Within 7 :=
    ⟨2, 2, 2, 0, by decide, within_incrementWindowCounter _ _ _, within_incrementWindowCounter _ _ _,
      within_defaultIfEmpty (within_incrementFailedAuthStreak _) 0, fun _ => trivial⟩
  refine within_flatMap hcounts (fun counts => ?_) (Nat.le_refl (7 + 8))
  refine within_flatMap (within_await _) (fun clocks => ?_) (Nat.le_refl (1 + 7))
  exact within_flatMap (within_publishAsync _ _ _ _)
    (fun _ => within_route platform properties _ _ _ _ _) (Nat.le_refl (2 + 5))

/-- Reading the body and the pipeline take sixteen steps. -/
theorem within_processBody (exchange : Exchange) (clientIp method path : String)
    (claims : Option Claims) :
    (processBody platform properties exchange clientIp method path claims).Within 16 := by
  unfold processBody
  split
  · exact within_flatMap (within_defaultIfEmpty (within_joinBody _) [])
      (fun _ => within_continuePipeline platform properties _ _ _ _ _ _) (Nat.le_refl (1 + 15))
  · exact (within_continuePipeline platform properties _ _ _ _ _ _).mono (by decide)

/-- The whole filter takes eighteen steps. -/
theorem within_filter (exchange : Exchange) : (filter platform properties exchange).Within 18 := by
  unfold filter
  split
  · exact within_done _ _
  · refine within_flatMap (within_authenticate exchange) (fun claims => ?_) (Nat.le_refl (1 + 17))
    split
    · exact (within_reject _ _).mono (by decide)
    · refine within_flatMap (within_await _) (fun blocked => ?_) (Nat.le_refl (1 + 16))
      split
      · exact (within_reject _ _).mono (by decide)
      · exact within_processBody platform properties _ _ _ _ _

end Filter

variable {K : Type} [Field K] [LinearOrder K] [FloorRing K]

/-- A message takes two steps. -/
theorem within_processMessage (config : EngineConfig K) (payload : Wire.Json K) :
    (KafkaConsumer.processMessage config payload).Within 2 := by
  have hblock : ∀ clientIp result, (KafkaConsumer.blockClient config clientIp result).Within 1 := by
    intro clientIp result
    unfold KafkaConsumer.blockClient
    split
    · split
      · exact within_done _ _
      · exact within_thenReturn (within_await _) ()
    · exact within_just _ _
  unfold KafkaConsumer.processMessage
  split
  · split
    · exact within_just _ _
    · refine within_onErrorResume ?_ ()
      exact within_andThen (hblock _ _) (within_await _) (Nat.le_refl (1 + 1))
  · exact within_just _ _

omit [Field K] [LinearOrder K] [FloorRing K] in
/-- How many steps a thread can take. -/
def maxSteps : Label K → ℕ
  | .request _ => 18
  | .message _ _ => 2

/-- The programs of the deployment run within their bounds. -/
theorem within_body (d : Deployment K) (l : Label K) : (d.system.body l).Within (maxSteps l) := by
  cases l with
  | request exchange => exact within_filter d.platform d.properties exchange
  | message source payload => exact within_processMessage d.engine payload

/-- In every reachable state of every run, each request and each message can take its remaining
steps alone, whatever the environment chooses for each of them, and with those it has taken they are at
most eighteen and two; so there are never more calls in a run than eighteen for each request and two for
each message. -/
theorem threads_end_alone (d : Deployment K) {w : State K}
    (hrun : d.system.Run Anything start w) :
    (∀ i l, w.labels[i]? = some l → ∀ choose : State K → Env K, ∃ as w' s,
      d.system.exec as w = some w' ∧ as.length + (w.events i).length ≤ maxSteps l ∧
      (∀ w₁ a w₂, d.system.StepOf as w w₁ a w₂ → a.StepsThread i (choose w₁)) ∧
      w'.threads = w.threads.set i (l, .done s)) ∧
    w.log.length ≤ (w.labels.map maxSteps).sum :=
  ⟨fun _ _ hi choose => hrun.ends_within (within_body d) hi choose,
    hrun.length_log_le (within_body d)⟩

/-- A run in which a request is under way, and another one has arrived. -/
def twoRequests : State ℚ :=
  sample.system.after
    (.spawn (.request (sampleRequest "/api/auth/register" "10.0.0.1")) ::
      .spawn (.request (sampleRequest "/api/auth/register" "10.0.0.2")) ::
      callTop 1 0 sampleEnv) start

/-- After two more calls the engine allows nothing any more. -/
def turningEnv (w : State ℚ) : Env ℚ := if w.log.length < 3 then sampleEnv else blockingEnv

/-- The second request can end before the first one goes on, in eighteen steps, while the environment
changes its mind. -/
theorem twoRequests_end_alone : ∃ as w' s, sample.system.exec as twoRequests = some w' ∧
    as.length ≤ 18 ∧
    (∀ w₁ a w₂, sample.system.StepOf as twoRequests w₁ a w₂ → a.StepsThread 1 (turningEnv w₁)) ∧
    w'.threads = twoRequests.threads.set 1
      (.request (sampleRequest "/api/auth/register" "10.0.0.2"), .done s) := by
  have hrun : sample.system.Run Anything start twoRequests :=
    System.Run.after rfl fun _ _ => trivial
  exact (threads_end_alone sample hrun).1 1 _ rfl turningEnv

end ApiFirewall.Guarantees
