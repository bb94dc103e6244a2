import ApiFirewall.Gateway.ScoreExchange
import ApiFirewall.Guarantees.Blocklist
import ApiFirewall.Guarantees.Enforcement

/-!
# The disposition of a scored request

A request that was scored is answered 403 after its client was put on the blocklist, or it is
handed on once. The filter keeps this exactly where the exchange about the score ends with a value
or an error, a block comes with its reason, and no call on the response fails: a body that is empty
or null ends the request without either, and so does a block without a reason.
-/

namespace ApiFirewall.Guarantees

open ApiFirewall.Wire ApiFirewall.Gateway ApiFirewall.Gateway.ZeroTrustFilter ApiFirewall.KeyValue
open ApiFirewall.Reactive

variable {K : Type}

/-- A call before the score. -/
def Gathering (op : Op K) : Prop := Collecting op ∨ ∃ record, op = .send record

/-- The calls before the score neither answer the request nor hand it on. -/
theorem Gathering.not_acting {op : Op K} (h : Gathering op) : ¬ Acting op := by
  rcases h with hcollecting | ⟨record, rfl⟩
  · cases op with
    | redis c => cases c <;> first | exact hcollecting.elim | exact id
    | _ => first | exact hcollecting.elim | exact id
  · exact id

/-- A request for a score is not among calls that only gather. -/
private theorem later_of_gathering {early late : Events K} (hearly : ∀ e ∈ early, Gathering e.op)
    {position : List Branch} {signal : RequestSignalDTO K} {reply : Signal (ScoreResponseDTO K)}
    (hmem : ⟨position, .postScore signal, reply⟩ ∈ early ++ late) :
    ⟨position, .postScore signal, reply⟩ ∈ late := by
  rcases List.mem_append.mp hmem with h | h
  · exact absurd trivial (hearly _ h).not_acting
  · exact h

/-- The publication only gathers. -/
private theorem gathering_of_publishAsync {clientIp method path : String}
    {signal : RequestSignalDTO K} {tr : Events K} {m' : Program K Unit}
    (h : Trace (KafkaRequestPublisher.publishAsync clientIp method path signal) tr m') :
    ∀ e ∈ tr, Gathering e.op := by
  rcases publishAsync_trace h with ⟨-, hstamp⟩ | ⟨r, -, rfl⟩ | ⟨s, r, rfl⟩
  · intro e he
    rw [hstamp e he]
    exact .inl trivial
  · simp [Event.top, Gathering, Collecting]
  · simp [Event.top, Gathering, Collecting]

variable [Field K]

/-- What the filter does with the reply to its request for a score. -/
def actOn (platform : Platform K) (properties : SecurityProperties K) (exchange : Exchange)
    (clientIp : String) (reply : Signal (ScoreResponseDTO K)) : Program K Unit :=
  match scored reply with
  | some result => enforce platform properties exchange clientIp result
  | none => .done .empty

variable {platform : Platform K} {properties : SecurityProperties K} {exchange : Exchange}

/-- Routing a request that was scored acts on the score. -/
theorem route_scored {clientIp path : String} {rate10s : ℤ} {signal : RequestSignalDTO K}
    {tr : Events K} {m' : Program K Unit}
    (h : Trace (route platform properties exchange clientIp path rate10s signal) tr m')
    {position : List Branch} {signal' : RequestSignalDTO K} {reply : Signal (ScoreResponseDTO K)}
    (hmem : ⟨position, .postScore signal', reply⟩ ∈ tr) :
    ∃ rest, tr = .top (.postScore signal') reply :: rest ∧
      Trace (actOn platform properties exchange clientIp reply) rest m' := by
  have hroute := route_trace h
  unfold route at h
  split at h
  · rcases h.of_call with ⟨rfl, -⟩ | ⟨r, rest, rfl, hrest⟩
    · simp at hmem
    · have hact : Trace (actOn platform properties exchange clientIp r) rest m' := by
        cases r <;> exact hrest
      have hnone : ∀ e ∈ rest, carriedSignal e.op = none := by
        unfold actOn at hact
        split at hact
        · rename_i result hscored
          refine forall_of_isPrefix (fun op => carriedSignal op = none) (enforce_trace hact).1 ?_
          unfold enforcement
          split
          · cases result.reason <;> simp [carriedSignal]
          · simp [carriedSignal]
        · obtain ⟨rfl, -⟩ := hact.of_done
          simp
      rcases List.mem_cons.mp hmem with heq | hlater
      · simp only [Event.top, Event.mk.injEq, Op.postScore.injEq] at heq
        obtain ⟨rfl, rfl, hreply⟩ := heq
        cases hreply
        exact ⟨rest, rfl, hact⟩
      · simpa [carriedSignal] using hnone _ hlater
  · rcases h.of_await with ⟨rfl, -⟩ | ⟨r, rfl, -⟩ <;> simp [Event.top] at hmem

/-- With its three counts, a request that was scored has only gathered information before. -/
theorem assess_scored {clientIp method path bodyString : String} {claims : Option Claims}
    {counts : ℤ × ℤ × ℤ} {tr : Events K} {m' : Program K Unit}
    (h : Trace (assess platform properties exchange clientIp method path claims bodyString counts)
      tr m') {position : List Branch} {signal : RequestSignalDTO K}
    {reply : Signal (ScoreResponseDTO K)} (hmem : ⟨position, .postScore signal, reply⟩ ∈ tr) :
    ∃ before rest, tr = before ++ .top (.postScore signal) reply :: rest ∧
      (∀ e ∈ before, Gathering e.op) ∧
      Trace (actOn platform properties exchange clientIp reply) rest m' := by
  rcases h.of_await_flatMap with ⟨-, rfl | ⟨r, rfl, -⟩⟩ | ⟨clocks, after, rfl, hafter⟩
  · simp at hmem
  · simp [Event.top] at hmem
  · have hclocks : ∀ e ∈ [(.top .readClocks (.value clocks) : Event (Op K) Res)],
        Gathering e.op := by
      simp [Event.top, Gathering, Collecting]
    have hmem := later_of_gathering hclocks hmem
    rcases hafter.of_flatMap with ⟨m₁, hpub, -, -⟩ | ⟨pub, rest, _, rfl, hpub, hroute⟩
    · exact absurd trivial (gathering_of_publishAsync hpub _ hmem).not_acting
    · have hgather := gathering_of_publishAsync hpub
      obtain ⟨rest', rfl, hact⟩ := route_scored hroute (later_of_gathering hgather hmem)
      refine ⟨.top .readClocks (.value clocks) :: pub, rest', rfl, ?_, hact⟩
      exact List.forall_mem_cons.mpr ⟨.inl trivial, hgather⟩

/-- A request that was scored has only gathered information before, and acts on the score after. -/
theorem after_score {tr : Events K} {m' : Program K Unit}
    (h : Trace (filter platform properties exchange) tr m') {position : List Branch}
    {signal : RequestSignalDTO K} {reply : Signal (ScoreResponseDTO K)}
    (hmem : ⟨position, .postScore signal, reply⟩ ∈ tr) :
    ∃ clientIp buffers before rest, resolveClientIp exchange = some clientIp ∧
      tr = before ++ .top (.postScore signal) reply :: rest ∧ (∀ e ∈ before, Gathering e.op) ∧
      Trace (actOn platform properties { exchange with body := buffers } clientIp reply) rest
        m' := by
  rcases filter_trace h with href |
    ⟨clientIp, claims, pre, after, buffers, bodyString, rfl, hpre, -, hafter⟩
  · rcases collecting_or_rejecting_of_refused href _ hmem with hcollecting | hrejecting
    · exact hcollecting.elim
    · exact hrejecting.elim
  · have hearly : ∀ e ∈ pre, Gathering e.op := fun e he =>
      .inl (hpre.preliminary e he).collecting
    have hmem := later_of_gathering hearly hmem
    rcases continuePipeline_trace hafter with ⟨-, a, b, c, hcounts⟩ |
      ⟨counts, after, rate10s, rate60s, failStreak, rfl, hcounts, hafter⟩
    · exact (collecting_of_counting hcounts _ hmem).elim
    · have hcounting : ∀ e ∈ counts, Gathering e.op := fun e he =>
        .inl (collecting_of_counting hcounts e he)
      obtain ⟨before, rest, rfl, hbefore, hact⟩ :=
        assess_scored hafter (later_of_gathering hcounting hmem)
      refine ⟨clientIp, buffers, pre ++ (counts ++ before), rest, hpre.resolved, ?_, ?_, hact⟩
      · simp only [List.append_assoc]
      · intro e he
        rcases List.mem_append.mp he with hpre | he
        · exact hearly e hpre
        · exact (List.mem_append.mp he).elim (hcounting e) (hbefore e)

/-- The header of a rejection. -/
def jsonHeader : Op K := .addHeader "Content-Type" (some "application/json")

/-- The write of a client to the blocklist. -/
def blockingWrite (properties : SecurityProperties K) (clientIp reason : String) : Op K :=
  .redis (.set (RedisStateService.blocklistKey clientIp) reason
    (seconds properties.blocklistTtlSeconds))

/-- The calls of a rejection that has ended. -/
inductive RejectionEnd (properties : SecurityProperties K) (clientIp : String)
    (reason : Option String) : Events K → Prop where
  | status (r : Signal Unit) (hr : ∀ a, r ≠ .value a) :
      RejectionEnd properties clientIp reason [.top (.setStatusCode 403) r]
  | header (r : Signal Unit) (hr : ∀ a, r ≠ .value a) :
      RejectionEnd properties clientIp reason
        [.top (.setStatusCode 403) (.value ()), .top jsonHeader r]
  | silent (hreason : reason = none) :
      RejectionEnd properties clientIp reason
        [.top (.setStatusCode 403) (.value ()), .top jsonHeader (.value ())]
  | unwritten {text : String} (hreason : reason = some text) :
      RejectionEnd properties clientIp reason
        [.top (.setStatusCode 403) (.value ()), .top jsonHeader (.value ()),
         .top (blockingWrite properties clientIp text) .error]
  | written {text : String} (hreason : reason = some text) (r : Signal Bool) (body : String)
      (r' : Signal Unit) :
      RejectionEnd properties clientIp reason
        [.top (.setStatusCode 403) (.value ()), .top jsonHeader (.value ()),
         .top (blockingWrite properties clientIp text) r, .top (.writeWith body) r']

/-- The calls that hand a tagged request on and have ended. -/
inductive HandOverEnd (platform : Platform K) (exchange : Exchange) (result : ScoreResponseDTO K) :
    Events K → Prop where
  | level (r : Signal Unit) (hr : ∀ a, r ≠ .value a) :
      HandOverEnd platform exchange result [.top (.addHeader "X-Risk-Level" result.decision) r]
  | score (r : Signal Unit) (hr : ∀ a, r ≠ .value a) :
      HandOverEnd platform exchange result
        [.top (.addHeader "X-Risk-Level" result.decision) (.value ()),
         .top (.addHeader "X-Risk-Score" (some (platform.showDouble result.finalScore))) r]
  | chained (r : Signal Unit) :
      HandOverEnd platform exchange result
        [.top (.addHeader "X-Risk-Level" result.decision) (.value ()),
         .top (.addHeader "X-Risk-Score" (some (platform.showDouble result.finalScore))) (.value ()),
         .top (.chain exchange) r]

omit [Field K] in
/-- A score that blocks ends in a rejection. -/
theorem enforce_rejects {clientIp : String} {result : ScoreResponseDTO K}
    (hblock : result.decision = some "BLOCK") {tr : Events K} {s : Signal Unit}
    (h : Trace (enforce platform properties exchange clientIp result) tr (.done s)) :
    RejectionEnd properties clientIp result.reason tr := by
  rw [enforce, if_pos hblock] at h
  rcases h.ended_await_flatMap with ⟨r, rfl, hr, -⟩ | ⟨_, tr₁, rfl, hheader⟩
  · exact .status r hr
  rcases hheader.ended_await_flatMap with ⟨r, rfl, hr, -⟩ | ⟨_, tr₂, rfl, hwrite⟩
  · exact .header r hr
  unfold RedisStateService.blockImmediately at hwrite
  cases hreason : result.reason with
  | none =>
    rw [hreason] at hwrite
    obtain ⟨rfl, -⟩ := hwrite.of_done
    exact .silent rfl
  | some text =>
    rw [hreason] at hwrite
    rcases hwrite.of_call with ⟨-, hne⟩ | ⟨r, tr₃, rfl, hbody⟩
    · simp at hne
    · by_cases hr : r = .error
      · subst hr
        obtain ⟨rfl, -⟩ := hbody.of_done
        exact .unwritten rfl
      · have hwritten : Trace (rejectBody ("Request blocked by threat engine: " ++ text) :
            Program K Unit) tr₃ (.done s) := by
          cases r with
          | error => exact absurd rfl hr
          | _ => exact hbody
        obtain rfl := hwritten.ended_await
        exact .written rfl r _ s

omit [Field K] in
/-- Any other score ends in a hand-over. -/
theorem enforce_hands_over {clientIp : String} {result : ScoreResponseDTO K}
    (hpass : result.decision ≠ some "BLOCK") {tr : Events K} {s : Signal Unit}
    (h : Trace (enforce platform properties exchange clientIp result) tr (.done s)) :
    HandOverEnd platform exchange result tr := by
  rw [enforce, if_neg hpass, tagRisk] at h
  rcases h.ended_flatMap with ⟨s', htag, hs', -⟩ | ⟨tr₁, tr₂, _, rfl, htag, hchain⟩
  · rcases htag.ended_await_flatMap with ⟨r, rfl, hr, -⟩ | ⟨_, tr₁, rfl, hscore⟩
    · exact .level r hr
    · obtain rfl := hscore.ended_await
      exact .score s' hs'
  · rcases htag.ended_await_flatMap with ⟨r, -, -, hs⟩ | ⟨_, tr₃, rfl, hscore⟩
    · exact absurd rfl (hs _)
    · obtain rfl := hscore.ended_await
      obtain rfl := hchain.ended_await
      exact .chained s

/-- The call has been answered with a value. -/
def answered (e : Event (Op K) Res) : Bool := !e.reply.isError && !e.reply.isEmpty

omit [Field K] in
/-- The reply of an answered call is a value. -/
theorem answered_iff {e : Event (Op K) Res} : answered e = true ↔ ∃ a, e.reply = .value a := by
  cases hreply : e.reply <;> simp [answered, hreply, Signal.isError, Signal.isEmpty]

/-- The call is a command to the store. -/
def isRedis : Op K → Bool
  | .redis _ => true
  | _ => false

/-- The call sets the status or a header of the response. -/
def shapesResponse : Op K → Bool
  | .setStatusCode _ => true
  | .addHeader _ _ => true
  | _ => false

/-- Every command to the store has succeeded. -/
def RedisSucceeds (tr : Events K) : Prop := ∀ e ∈ tr, isRedis e.op = true → answered e = true

/-- Every call that shapes the response has succeeded. -/
def ResponseShaped (tr : Events K) : Prop :=
  ∀ e ∈ tr, shapesResponse e.op = true → answered e = true

instance (tr : Events K) : Decidable (RedisSucceeds tr) :=
  inferInstanceAs (Decidable (∀ e ∈ tr, isRedis e.op = true → answered e = true))

instance (tr : Events K) : Decidable (ResponseShaped tr) :=
  inferInstanceAs (Decidable (∀ e ∈ tr, shapesResponse e.op = true → answered e = true))

/-- The request is answered 403, after its client was put on the blocklist. -/
def RejectedAfterBlock (exchange : Exchange) (tr : Events K) : Prop :=
  ∃ c reason ttl v body r, resolveClientIp exchange = some c ∧
    [.top (.setStatusCode 403) (.value ()),
     .top (.redis (.set (RedisStateService.blocklistKey c) reason ttl)) (.value v),
     .top (.writeWith body) r].Sublist tr

/-- How often the request is handed on. -/
def handOvers (tr : Events K) : ℕ := tr.countP fun e => isChain e.op

/-- The score that the filter acts on asks to block the client. -/
def asksToBlock (reply : Signal (ScoreResponseDTO K)) : Bool :=
  (scored reply).any fun result => result.decision = some "BLOCK"

/-- The request has exactly one disposition: it is rejected after its client was blocked, if the
score asks to block it, and is handed on once otherwise. -/
def Disposed (exchange : Exchange) (reply : Signal (ScoreResponseDTO K)) (tr : Events K) : Prop :=
  if asksToBlock reply = true then RejectedAfterBlock exchange tr ∧ handOvers tr = 0
  else handOvers tr = 1 ∧ ¬ RejectedAfterBlock exchange tr

/-- The exchange ends with something to act on: neither a void response nor a block without a
reason. -/
def Actionable (texts : ScalarTexts K) (outcome : Outcome K) : Prop :=
  ¬ ThreatEngineClient.IsVoid outcome ∧
    ∀ result, ThreatEngineClient.exchanged texts outcome = .value result →
      result.decision = some "BLOCK" → result.reason ≠ none

omit [Field K] in
/-- Gathering leaves the response as it is. -/
theorem Gathering.quiet {op : Op K} (h : Gathering op) :
    isChain op = false ∧ shapesResponse op = false := by
  have hnot := h.not_acting
  cases op <;> first | exact ⟨rfl, rfl⟩ | exact absurd trivial hnot

omit [Field K] in
/-- What happens before the score does not matter for the hand-overs. -/
theorem handOvers_tail {before rest : Events K} {e : Event (Op K) Res}
    (hbefore : ∀ e ∈ before, Gathering e.op) (he : isChain e.op = false) :
    handOvers (before ++ e :: rest) = handOvers rest := by
  unfold handOvers
  rw [List.countP_append, List.countP_cons_of_neg (by simp [he]),
    List.countP_eq_zero.mpr fun e he => by simp [(hbefore e he).quiet.1], Nat.zero_add]

omit [Field K] in
/-- What happens before the score does not matter for the response. -/
theorem responseShaped_tail {before rest : Events K} {e : Event (Op K) Res}
    (hbefore : ∀ e ∈ before, Gathering e.op) (he : shapesResponse e.op = false) :
    ResponseShaped (before ++ e :: rest) ↔ ResponseShaped rest := by
  constructor
  · intro h a ha
    exact h a (by simp [ha])
  · intro h a ha hshapes
    rcases List.mem_append.mp ha with hmem | hmem
    · simp [(hbefore a hmem).quiet.2] at hshapes
    · rcases List.mem_cons.mp hmem with rfl | hmem
      · simp [he] at hshapes
      · exact h a hmem hshapes

/-- Calls that do not occur in a beginning occur after it. -/
private theorem sublist_tail {α : Type} {l before rest : List α} (h : l.Sublist (before ++ rest))
    (hnone : ∀ x ∈ l, x ∉ before) : l.Sublist rest := by
  obtain ⟨l₁, l₂, rfl, h₁, h₂⟩ := List.sublist_append_iff.mp h
  obtain rfl : l₁ = [] := List.eq_nil_iff_forall_not_mem.mpr fun x hx =>
    hnone x (by simp [hx]) (h₁.subset hx)
  exact h₂

omit [Field K] in
/-- What happens before the score does not matter for the rejection. -/
theorem rejectedAfterBlock_tail {before rest : Events K} {signal : RequestSignalDTO K}
    {reply : Signal (ScoreResponseDTO K)} (hbefore : ∀ e ∈ before, Gathering e.op) :
    RejectedAfterBlock exchange (before ++ .top (.postScore signal) reply :: rest) ↔
      RejectedAfterBlock exchange rest := by
  have hloud : ∀ e : Event (Op K) Res, Acting e.op → e ∉ before := fun e hact he =>
    (hbefore e he).not_acting hact
  constructor
  · rintro ⟨c, reason, ttl, v, body, r, hc, hsub⟩
    refine ⟨c, reason, ttl, v, body, r, hc, ?_⟩
    have hacting : ∀ e : Event (Op K) Res, e ∈ [.top (.setStatusCode 403) (.value ()),
        .top (.redis (.set (RedisStateService.blocklistKey c) reason ttl)) (.value v),
        .top (.writeWith body) r] → Acting e.op := by
      simp [Event.top, Acting]
    have hrest := sublist_tail hsub fun e he => hloud e (hacting e he)
    refine (List.sublist_cons_iff.mp hrest).resolve_right ?_
    rintro ⟨l, heq, -⟩
    simp [Event.top] at heq
  · rintro ⟨c, reason, ttl, v, body, r, hc, hsub⟩
    exact ⟨c, reason, ttl, v, body, r, hc,
      (hsub.trans (List.sublist_cons_self _ _)).trans (List.sublist_append_right _ _)⟩

omit [Field K] in
/-- Only a request that writes an answer is rejected. -/
theorem writeWith_mem_of_rejected {tr : Events K} (h : RejectedAfterBlock exchange tr) :
    ∃ body r, .top (.writeWith body) r ∈ tr := by
  obtain ⟨c, reason, ttl, v, body, r, -, hsub⟩ := h
  exact ⟨body, r, hsub.subset (by simp)⟩

omit [Field K] in
/-- A call on the response that was not answered is one that has failed. -/
theorem not_responseShaped {tr : Events K} {op : Op K} {r : Signal (Res op)}
    (hmem : .top op r ∈ tr) (hshapes : shapesResponse op = true) (hr : ∀ a, r ≠ .value a) :
    ¬ ResponseShaped tr := by
  intro hshaped
  obtain ⟨a, ha⟩ := answered_iff.mp (hshaped _ hmem hshapes)
  exact hr a ha

omit [Field K] in
/-- A rejection that has ended is one after a block exactly if the block has a reason and no call on
the response has failed. -/
theorem rejected_iff_of_rejectionEnd {clientIp : String}
    (hresolved : resolveClientIp exchange = some clientIp) {reason : Option String}
    {tr : Events K} (h : RejectionEnd properties clientIp reason tr) (hredis : RedisSucceeds tr) :
    (RejectedAfterBlock exchange tr ∧ handOvers tr = 0) ↔ reason ≠ none ∧ ResponseShaped tr := by
  have hunwritten : (∀ body r, .top (.writeWith body) r ∉ tr) → ¬ RejectedAfterBlock exchange tr :=
    fun hnone hrejected =>
      let ⟨body, r, hmem⟩ := writeWith_mem_of_rejected hrejected
      hnone body r hmem
  cases h with
  | status r hr =>
    have hrejected := hunwritten (by simp [Event.top])
    exact iff_of_false (fun h => hrejected h.1) fun h =>
      not_responseShaped (List.mem_singleton_self _) rfl hr h.2
  | header r hr =>
    have hrejected := hunwritten (by simp [Event.top, jsonHeader])
    exact iff_of_false (fun h => hrejected h.1) fun h =>
      not_responseShaped (List.mem_cons_of_mem _ (List.mem_singleton_self _)) rfl hr h.2
  | silent hreason =>
    have hrejected := hunwritten (by simp [Event.top, jsonHeader])
    exact iff_of_false (fun h => hrejected h.1) fun h => h.1 hreason
  | @unwritten text hreason =>
    obtain ⟨a, ha⟩ := answered_iff.mp
      (hredis (.top (blockingWrite properties clientIp text) .error) (by simp) rfl)
    simp [Event.top] at ha
  | @written text hreason r body r' =>
    obtain ⟨v, rfl⟩ : ∃ v : Bool, r = .value v := answered_iff.mp
      (hredis (.top (blockingWrite properties clientIp text) r) (by simp) rfl)
    refine iff_of_true ⟨⟨clientIp, text, seconds properties.blocklistTtlSeconds, v, body, r',
      hresolved, ?_⟩, rfl⟩ ⟨by simp [hreason], ?_⟩
    · exact .cons_cons _ (.cons _ (List.Sublist.refl _))
    · simp [ResponseShaped, Event.top, jsonHeader, blockingWrite, shapesResponse, answered,
        Signal.isError, Signal.isEmpty]

omit [Field K] in
/-- A hand-over that has ended has handed the request on exactly if no call on the response has
failed. -/
theorem handedOn_iff_of_handOverEnd {exchange' : Exchange} {result : ScoreResponseDTO K}
    {tr : Events K} (h : HandOverEnd platform exchange' result tr) :
    (handOvers tr = 1 ∧ ¬ RejectedAfterBlock exchange tr) ↔ ResponseShaped tr := by
  cases h with
  | level r hr =>
    exact iff_of_false (by simp [handOvers, isChain, Event.top])
      (not_responseShaped (List.mem_singleton_self _) rfl hr)
  | score r hr =>
    exact iff_of_false (by simp [handOvers, isChain, Event.top])
      (not_responseShaped (List.mem_cons_of_mem _ (List.mem_singleton_self _)) rfl hr)
  | chained r =>
    refine iff_of_true ⟨by simp [handOvers, isChain, Event.top], fun hrejected => ?_⟩ ?_
    · obtain ⟨body, r', hmem⟩ := writeWith_mem_of_rejected hrejected
      simp [Event.top] at hmem
    · simp [ResponseShaped, Event.top, shapesResponse, answered, Signal.isError, Signal.isEmpty]

/-- What follows a reply has its disposition exactly if there is a score to act on, a block has its
reason, and no call on the response has failed. -/
theorem disposed_iff_of_actOn {clientIp : String}
    (hresolved : resolveClientIp exchange = some clientIp) {exchange' : Exchange}
    {reply : Signal (ScoreResponseDTO K)} {tr : Events K} {s : Signal Unit}
    (h : Trace (actOn platform properties exchange' clientIp reply) tr (.done s))
    (hredis : RedisSucceeds tr) :
    Disposed exchange reply tr ↔
      (∃ result, scored reply = some result ∧
        (result.decision = some "BLOCK" → result.reason ≠ none)) ∧ ResponseShaped tr := by
  unfold actOn at h
  unfold Disposed asksToBlock
  cases hscored : scored reply with
  | none =>
    rw [hscored] at h
    obtain ⟨rfl, -⟩ := h.of_done
    simp [handOvers]
  | some result =>
    rw [hscored] at h
    by_cases hblock : result.decision = some "BLOCK"
    · have hend := rejected_iff_of_rejectionEnd hresolved (enforce_rejects hblock h) hredis
      simpa [hblock] using hend
    · have hend : handOvers tr = 1 ∧ ¬ RejectedAfterBlock exchange tr ↔ ResponseShaped tr :=
        handedOn_iff_of_handOverEnd (enforce_hands_over hblock h)
      simpa [hblock] using hend

/-- An exchange is actionable exactly if it leads to a score whose block has a reason. -/
theorem actionable_iff {texts : ScalarTexts K} {outcome : Outcome K} :
    Actionable texts outcome ↔
      ∃ result, scored (ThreatEngineClient.exchanged texts outcome) = some result ∧
        (result.decision = some "BLOCK" → result.reason ≠ none) := by
  unfold Actionable
  rw [← ThreatEngineClient.exchanged_eq_empty texts]
  cases ThreatEngineClient.exchanged texts outcome with
  | value result => simp [scored]
  | empty => simp [scored]
  | error => simp [scored, ThreatEngineClient.unscored]

/-- Whatever the calls reply, a request that was scored, has ended and whose commands to the store
have succeeded has exactly one disposition, the one that its score asks for, if and only if the
exchange about the score is actionable and no call on the response has failed. -/
theorem disposed_iff {tr : Events K} {s : Signal Unit}
    (h : Trace (filter platform properties exchange) tr (.done s)) {texts : ScalarTexts K}
    {outcome : Outcome K} {position : List Branch} {signal : RequestSignalDTO K}
    (hmem : ⟨position, .postScore signal, ThreatEngineClient.exchanged texts outcome⟩ ∈ tr)
    (hredis : RedisSucceeds tr) :
    Disposed exchange (ThreatEngineClient.exchanged texts outcome) tr ↔
      Actionable texts outcome ∧ ResponseShaped tr := by
  obtain ⟨clientIp, buffers, before, rest, hresolved, rfl, hbefore, hact⟩ := after_score h hmem
  have hrest := disposed_iff_of_actOn hresolved hact fun e he => hredis e (by simp [he])
  rw [actionable_iff, responseShaped_tail hbefore rfl, ← hrest]
  unfold Disposed
  rw [handOvers_tail hbefore rfl, rejectedAfterBlock_tail hbefore]

open Deployment

/-- The response by which the engine blocks a request. -/
def blockingOutcome : Outcome ℚ :=
  .response
    { status := 200
      body := .json (.obj
        [("isolation_score", .real (.finite 1)), ("xgboost_score", .real (.finite 1)),
         ("final_score", .real (.finite 1)), ("decision", .str "BLOCK"),
         ("reason", .str "High combined anomaly + attack-pattern probability")]) }

/-- A login that the engine blocks has its disposition. -/
theorem blockedLogin_disposed :
    Disposed (sampleRequest "/api/auth/login" "10.0.0.1") (.value blockingScore)
      (repeatedLogin.events 0) := by
  have hrun : sample.system.Run StoreAnswers start repeatedLogin := System.Run.after rfl (by decide)
  have htr := trace_of_ended hrun (show repeatedLogin.threads[0]? =
    some (.request (sampleRequest "/api/auth/login" "10.0.0.1"), .done (.value ())) from rfl)
    (by simp)
  have hmem := List.mem_of_getElem? (show (repeatedLogin.events 0)[9]? = some ⟨[], .postScore _,
    ThreatEngineClient.exchanged sampleTexts blockingOutcome⟩ from rfl)
  refine (disposed_iff htr hmem (by decide)).mpr ⟨⟨id, ?_⟩, by decide⟩
  intro result hresult _
  obtain rfl : blockingScore = result := Signal.value.inj hresult
  exact Option.some_ne_none _

/-- Every request that was scored, has ended and whose commands to the store have succeeded has its
disposition. -/
def AlwaysDisposed (platform : Platform K) (properties : SecurityProperties K)
    (texts : ScalarTexts K) : Prop :=
  ∀ exchange tr s outcome position signal,
    Trace (filter platform properties exchange) tr (.done s) →
    ⟨position, .postScore signal, ThreatEngineClient.exchanged texts outcome⟩ ∈ tr →
    RedisSucceeds tr → Disposed exchange (ThreatEngineClient.exchanged texts outcome) tr

/-- A run in which the engine's response to a login has an empty body. -/
def voidLogin : State ℚ :=
  sample.system.after
    (.spawn (.request (sampleRequest "/api/auth/login" "10.0.0.1")) ::
      callTop 1 0 { sampleEnv with score := .empty } ++
      callCounters true 0 { sampleEnv with score := .empty } ++
      callTop 4 0 { sampleEnv with score := .empty }) start

/-- That login is neither rejected nor handed on. -/
theorem voidLogin_undisposed :
    ¬ AlwaysDisposed sample.platform sample.properties sampleTexts := by
  intro hall
  have hrun : sample.system.Run StoreAnswers start voidLogin := System.Run.after rfl (by decide)
  have htr := trace_of_ended hrun (show voidLogin.threads[0]? =
    some (.request (sampleRequest "/api/auth/login" "10.0.0.1"), .done .empty) from rfl) (by simp)
  have hmem := List.mem_of_getElem? (show (voidLogin.events 0)[9]? = some ⟨[], .postScore _,
    ThreatEngineClient.exchanged sampleTexts (.response ⟨200, .empty⟩)⟩ from rfl)
  have hdisposed := hall _ _ _ _ _ _ htr hmem (by decide)
  rw [Disposed, if_neg (by decide)] at hdisposed
  exact absurd hdisposed.1 (by decide)

end ApiFirewall.Guarantees
