import ApiFirewall.Guarantees.AuditTrail
import ApiFirewall.Reactive.Conclusion

/-!
# Every request that ends is answered once

A request that nobody abandons and whose client can be told ends with its answer: it is handed on, or
a rejection is written, as its last call and as no other. It ends without an answer exactly where one
of its calls failed that the filter does not do without. The filter does without the publication and
the engine, but not without the store, the token library, the body or the response: where the block of
a client cannot be written, the rejection is not written either.
-/

namespace ApiFirewall.Guarantees

open ApiFirewall.Wire ApiFirewall.Gateway ApiFirewall.Gateway.ZeroTrustFilter ApiFirewall.KeyValue
open ApiFirewall.Reactive Deployment

variable {K : Type}

/-- The filter does not do without the call. -/
def Required : Op K → Prop
  | .parseSignedClaims _ => True
  | .redis _ => True
  | .readBody _ => True
  | .readClocks => True
  | .setStatusCode _ => True
  | .addHeader _ _ => True
  | _ => False

/-- The reply leaves a request without an answer: a required call failed, the engine's answer is
empty, or it is a block that has no reason. -/
def EndsUnanswered : (op : Op K) → Signal (Res op) → Prop
  | .postScore _, .empty => True
  | .postScore _, .value result => result.decision = some "BLOCK" ∧ result.reason = none
  | .postScore _, .error => False
  | op, r => Required op ∧ r = .error

/-- The deployment can give this reply to the call. -/
def CanReply (d : Deployment K) (op : Op K) (r : Signal (Res op)) : Prop :=
  ∃ env now s, r = (d.handle env now op s).1

section Programs

variable {d : Deployment K} {op : Op K} {r : Signal (Res op)}

/-- Only the engine answers empty. -/
theorem ne_empty_of_canReply (h : CanReply d op r) (hop : ∀ signal, op ≠ .postScore signal) :
    r ≠ .empty := by
  obtain ⟨env, now, s, rfl⟩ := h
  cases op with
  | parseSignedClaims token =>
    simp only [handle]
    cases d.parseSignedClaims env.clocks.now token <;> simp
  | redis c => exact command_ne_empty env.delivery now s c
  | readBody body =>
    simp only [handle]
    cases env.succeeds <;> simp
  | readClocks => simp [handle]
  | stamp => simp [handle]
  | postScore signal => exact absurd rfl (hop signal)
  | _ =>
    simp only [handle, completion]
    cases env.succeeds <;> simp

/-- A required call is strict. -/
theorem strict_required (h : Required op) :
    (Mono.await op).Strict (CanReply d) EndsUnanswered := by
  refine Mono.strict_await fun r hr => ⟨ne_empty_of_canReply hr ?_, ?_⟩
  · rintro signal rfl
    exact h
  · cases op <;> first | exact h.elim | simp [EndsUnanswered, Required]

/-- The call does not answer the request. -/
abbrev Quiet (op : Op K) : Prop := ¬ isAnswer op = true

/-- A required call does not answer the request. -/
theorem Required.quiet (h : Required op) : Quiet op := by
  cases op <;> first | exact h.elim | simp [isAnswer]

/-- The source is strict and does not answer the request. -/
structure Prepares {α : Type} (d : Deployment K) (m : Program K α) : Prop where
  strict : m.Strict (CanReply d) EndsUnanswered
  quiet : m.Emits Quiet

/-- The source concludes with an answer to the request. -/
abbrev AnswersRequest {α : Type} (d : Deployment K) (m : Program K α) : Prop :=
  m.Concludes (CanReply d) EndsUnanswered (isAnswer · = true)

/-- A required call prepares the answer. -/
theorem prepares_required (h : Required op := by exact trivial) : Prepares d (Mono.await op) :=
  ⟨strict_required h, h.quiet, fun _ => trivial⟩

/-- A value prepares the answer. -/
theorem prepares_just {α : Type} (a : α) : Prepares d (Mono.just a : Program K α) :=
  ⟨Mono.strict_just a, trivial⟩

/-- Preparations may follow one another. -/
theorem Prepares.flatMap {α β : Type} {m : Program K α} {f : α → Program K β} (hm : Prepares d m)
    (hf : ∀ a, Prepares d (f a)) : Prepares d (m.flatMap f) :=
  ⟨Mono.strict_flatMap hm.strict fun a => (hf a).strict,
    Mono.emits_flatMap hm.quiet fun a => (hf a).quiet⟩

/-- A preparation may return another value. -/
theorem Prepares.thenReturn {α β : Type} {m : Program K α} (hm : Prepares d m) (b : β) :
    Prepares d (m.thenReturn b) :=
  ⟨Mono.strict_thenReturn hm.strict b,
    Mono.emits_onSignal hm.quiet fun s => by cases s <;> trivial⟩

/-- The answer may follow a preparation. -/
theorem Prepares.answers {α β : Type} {m : Program K α} {f : α → Program K β} (hm : Prepares d m)
    (hf : ∀ a, AnswersRequest d (f a)) : AnswersRequest d (m.flatMap f) :=
  Mono.concludes_flatMap hm.strict hm.quiet hf

/-- Handing the request on answers it. -/
theorem answers_chain (exchange : Exchange) : AnswersRequest d (Mono.await (Op.chain exchange)) :=
  Mono.concludes_await rfl fun _ _ h => h.1

/-- Writing a rejection answers the request. -/
theorem answers_rejectBody (reason : String) : AnswersRequest d (rejectBody reason) :=
  Mono.concludes_await rfl fun _ _ h => h.1

/-- The status and the header come before what follows them. -/
theorem answers_rejectHead (status : ℕ) {next : Program K Unit} (h : AnswersRequest d next) :
    AnswersRequest d (rejectHead status next) :=
  Prepares.answers prepares_required fun _ => Prepares.answers prepares_required fun _ => h

/-- Publishing the signal prepares the answer, also where it fails. -/
theorem prepares_publishAsync (clientIp method path : String) (signal : RequestSignalDTO K) :
    Prepares d (KafkaRequestPublisher.publishAsync clientIp method path signal) := by
  have hbackground : ∀ op : Op K, op = .stamp ∨ (∃ record, op = .send record) →
      (∀ r, ¬ EndsUnanswered op r) ∧ Quiet op ∧
        (Mono.await op).Strict (CanReply d) fun _ r => r = .error := by
    rintro op hop
    refine ⟨?_, ?_, Mono.strict_await fun r hr => ⟨ne_empty_of_canReply hr ?_, Iff.rfl⟩⟩
    all_goals rcases hop with rfl | ⟨record, rfl⟩ <;> simp [EndsUnanswered, Required, isAnswer]
  obtain ⟨hstamp, hstampQuiet, hstampStrict⟩ := hbackground .stamp (.inl rfl)
  have hsend := fun s : Stamp => hbackground (.send (telemetry clientIp method path signal s))
    (.inr ⟨_, rfl⟩)
  constructor
  · refine Mono.strict_onErrorResume (Mono.strict_flatMap hstampStrict fun s => (hsend s).2.2) ?_ ()
    exact Mono.emits_flatMap ⟨hstamp, fun _ => trivial⟩ fun s => ⟨(hsend s).1, fun _ => trivial⟩
  · refine Mono.emits_onSignal ?_ fun s => by cases s <;> trivial
    exact Mono.emits_flatMap ⟨hstampQuiet, fun _ => trivial⟩ fun s =>
      ⟨(hsend s).2.1, fun _ => trivial⟩

/-- A window counter prepares the answer. -/
theorem prepares_incrementWindowCounter (clientIp endpoint : String) (window : ℕ) :
    Prepares d (RedisStateService.incrementWindowCounter clientIp endpoint window) := by
  refine Prepares.flatMap prepares_required fun count => ?_
  split
  · exact Prepares.thenReturn prepares_required count
  · exact prepares_just count

/-- The streak counter prepares the answer. -/
theorem prepares_streak (identity : String) :
    Prepares d ((RedisStateService.incrementFailedAuthStreak identity).defaultIfEmpty 0) := by
  have hstreak : Prepares d (RedisStateService.incrementFailedAuthStreak identity) := by
    exact Prepares.flatMap prepares_required fun count =>
      Prepares.thenReturn prepares_required count
  exact ⟨Mono.strict_defaultIfEmpty hstreak.strict 0,
    Mono.emits_onSignal hstreak.quiet fun s => by cases s <;> trivial⟩

/-- Reading the body prepares the answer. -/
theorem prepares_joinBody (body : List Bytes) :
    Prepares d ((joinBody body).defaultIfEmpty [] : Program K Bytes) := by
  have hjoined : ((joinBody body).defaultIfEmpty [] : Program K Bytes) =
      (Mono.await (Op.readBody body)).onSignal fun
        | .value buffers => .just buffers.flatten
        | .empty => .just []
        | .error => .done .error := by
    refine congrArg (Mono.call (Op.readBody body)) ?_
    funext r
    cases r with
    | value buffers =>
      by_cases hnone : buffers = []
      · subst hnone
        rfl
      · change Mono.onSignal (if buffers = [] then _ else _) _ = _
        rw [if_neg hnone]
        rfl
    | empty => rfl
    | error => rfl
  have hread : Prepares d (Mono.await (Op.readBody body)) := prepares_required
  rw [hjoined]
  exact ⟨Mono.strict_onSignal hread.strict (fun _ => Mono.strict_just _) rfl,
    Mono.emits_onSignal hread.quiet fun s => by cases s <;> trivial⟩

/-- Authentication prepares the answer. -/
theorem prepares_authenticate (exchange : Exchange) :
    Prepares d (authenticate exchange : Program K (Option Claims)) := by
  unfold authenticate JwtAuthValidator.validate
  split
  · exact prepares_just none
  · split
    · exact prepares_just none
    · exact Prepares.flatMap prepares_required fun verdict => by
        cases verdict <;> exact prepares_just _

variable {platform : Platform K} {properties : SecurityProperties K} {exchange : Exchange}

/-- Acting on a score answers the request unless it is a block without a reason. -/
theorem answers_enforce {clientIp : String} {result : ScoreResponseDTO K}
    (h : ¬ (result.decision = some "BLOCK" ∧ result.reason = none)) :
    AnswersRequest d (enforce platform properties exchange clientIp result) := by
  unfold enforce
  split
  · rename_i hblock
    refine answers_rejectHead 403 ?_
    cases hreason : result.reason with
    | none => exact absurd ⟨hblock, hreason⟩ h
    | some reason =>
      have hblocks : Prepares d (RedisStateService.blockImmediately properties clientIp
          (some reason)) := prepares_required
      exact Mono.concludes_andThen hblocks.strict hblocks.quiet (answers_rejectBody _)
  · refine Prepares.answers ?_ fun _ => answers_chain exchange
    exact Prepares.flatMap prepares_required fun _ => prepares_required

variable [Field K]

/-- Routing a request answers it. -/
theorem answers_route {clientIp path : String} {rate10s : ℤ} {signal : RequestSignalDTO K} :
    AnswersRequest d (route platform properties exchange clientIp path rate10s signal) := by
  unfold route
  split
  · refine Mono.concludes_call (by simp [isAnswer]) ?_ ?_
    · intro r _ hr
      cases r with
      | value result => exact answers_enforce hr
      | empty => exact absurd trivial hr
      | error => exact answers_enforce (by simp [ThreatEngineClient.unscored])
    · intro r _ hr
      cases r with
      | value result =>
        obtain ⟨hblock, hreason⟩ := hr
        change (enforce platform properties exchange clientIp result).Emits Quiet
        unfold enforce
        rw [if_pos hblock, hreason]
        exact Mono.emits_flatMap ⟨by simp [isAnswer], fun _ => trivial⟩ fun _ =>
          Mono.emits_flatMap ⟨by simp [isAnswer], fun _ => trivial⟩ fun _ => trivial
      | empty => trivial
      | error => exact hr.elim
  · exact answers_chain exchange

/-- With its three counts, a request is answered. -/
theorem answers_assess {clientIp method path : String} {claims : Option Claims}
    {bodyString : String} {counts : ℤ × ℤ × ℤ} :
    AnswersRequest d (assess platform properties exchange clientIp method path claims bodyString counts) :=
  Prepares.answers prepares_required fun _ => (prepares_publishAsync ..).answers fun _ =>
    answers_route

/-- An admitted request is answered. -/
theorem answers_continuePipeline {clientIp method path : String} {claims : Option Claims}
    {bodyString : String} :
    AnswersRequest d (continuePipeline platform properties exchange clientIp method path claims
      bodyString) := by
  have h10 := prepares_incrementWindowCounter (d := d) clientIp path (seconds 10)
  have h60 := prepares_incrementWindowCounter (d := d) clientIp path (seconds 60)
  have hstreak := prepares_streak (d := d) (identityKey claims clientIp)
  refine Prepares.answers ⟨Mono.strict_zip h10.strict h60.strict hstreak.strict, ?_⟩ fun counts =>
    answers_assess
  exact ⟨h10.quiet, h60.quiet, hstreak.quiet, fun _ => trivial⟩

/-- A request whose client can be told is answered. -/
theorem answers_filter (h : (resolveClientIp exchange).isSome = true) :
    AnswersRequest d (filter platform properties exchange) := by
  unfold filter
  split
  · rename_i hnone
    simp [hnone] at h
  · refine (prepares_authenticate exchange).answers fun claims => ?_
    split
    · exact answers_rejectHead 401 (answers_rejectBody _)
    · refine Prepares.answers prepares_required fun blocked => ?_
      cases blocked with
      | true => exact answers_rejectHead 403 (answers_rejectBody _)
      | false =>
        change AnswersRequest d (processBody ..)
        unfold processBody
        split
        · exact (prepares_joinBody exchange.body).answers fun bytes => answers_continuePipeline
        · exact answers_continuePipeline

end Programs

/-- The calls of every run are answered as the deployment can answer them. -/
theorem possible_events [Field K] [LinearOrder K] [FloorRing K] {d : Deployment K}
    {P : Action Stimulus (Env K) → Prop} {w : State K} (hrun : d.system.Run P start w) (i : ℕ) :
    Possible (CanReply d) (w.events i) := by
  intro e he
  obtain ⟨entry, hentry, -, rfl⟩ := mem_eventsOf.mp he
  obtain ⟨_, _, env, store, -, hreply⟩ := hrun.replies entry hentry
  exact ⟨env, entry.time, store, hreply⟩

/-- In every run in which nobody abandons a request, it has been answered once it has ended, by its
last call and no other, if its client can be told and none of its calls left it without an answer.
Otherwise nothing has answered it. -/
theorem ended_answered_once [Field K] [LinearOrder K] [FloorRing K] (d : Deployment K) {w : State K}
    {i : ℕ} (hrun : d.system.Run (Action.Keeps i) start w) {exchange : Exchange} {s : Signal Unit}
    (hi : w.threads[i]? = some (.request exchange, .done s)) :
    ((resolveClientIp exchange).isSome = true ∧ Clean EndsUnanswered (w.events i) →
        AnswersLast (isAnswer · = true) (w.events i)) ∧
      (¬ ((resolveClientIp exchange).isSome = true ∧ Clean EndsUnanswered (w.events i)) →
        ∀ e ∈ w.events i, isAnswer e.op = false) := by
  have htrace := hrun.trace_of_kept hi
  by_cases hresolved : (resolveClientIp exchange).isSome = true
  · obtain ⟨hclean, hfailed⟩ :=
      answers_filter hresolved (w.events i) s htrace (possible_events hrun i)
    refine ⟨fun h => hclean h.2, fun h e he => ?_⟩
    simpa using hfailed (fun hno => h ⟨hresolved, hno⟩) e he
  · refine ⟨fun h => absurd h.1 hresolved, fun _ e he => ?_⟩
    have hnone : resolveClientIp exchange = none := by simpa using hresolved
    change Trace (filter d.platform d.properties exchange) _ _ at htrace
    unfold filter at htrace
    rw [hnone] at htrace
    obtain ⟨hnil, -⟩ := htrace.of_done
    rw [hnil] at he
    cases he

/-- A run in which a login is scored as an attack and the store cannot be reached to block the
client. -/
def unwrittenBlock : Deployment.State ℚ :=
  Deployment.sample.system.after
    (.spawn (.request (Deployment.sampleRequest "/api/auth/login" "10.0.0.1")) ::
      callTop 1 0 blockingEnv ++ callCounters true 0 blockingEnv ++ callTop 6 0 blockingEnv ++
      callTop 1 0 { blockingEnv with delivery := .rejected }) start

/-- The login of that run has ended with its status set and without an answer. -/
theorem unwrittenBlock_unanswered :
    Op.setStatusCode 403 ∈ (unwrittenBlock.events 0).map Event.op ∧
      ∀ e ∈ unwrittenBlock.events 0, isAnswer e.op = false := by
  have hended : unwrittenBlock.threads[0]? =
      some (.request (sampleRequest "/api/auth/login" "10.0.0.1"), .done .error) := rfl
  have hlast : (unwrittenBlock.events 0).getLast? = some (.top (.redis
      (.set "blocklist:10.0.0.1" "High combined anomaly + attack-pattern probability" 900000))
      .error) := rfl
  have hfailed : ¬ Clean EndsUnanswered (unwrittenBlock.events 0) := fun h =>
    h _ (List.mem_of_getLast? hlast) ⟨trivial, rfl⟩
  have hstatus : (unwrittenBlock.events 0)[10]? =
      some (.top (.setStatusCode 403) (.value ())) := rfl
  refine ⟨List.mem_map.mpr ⟨_, List.mem_of_getElem? hstatus, rfl⟩, ?_⟩
  refine (ended_answered_once Deployment.sample (System.Run.after rfl ?_) hended).2 fun h =>
    hfailed h.2
  intro a ha
  cases a with
  | cancel j => simp [callTop, callCounters] at ha
  | _ => trivial

end ApiFirewall.Guarantees
