import ApiFirewall.Deployment

/-!
# The enforcement gate

A request reaches the backend as the last thing it does, and only after authentication, a lookup
that did not find the client blocked, and, if the request is high-risk, a score that does not
block it. The gate holds for every schedule and for every way in which the calls can end, because
it is a property of the traces of the filter alone.
-/

namespace ApiFirewall.Guarantees

open ApiFirewall.Gateway ApiFirewall.Gateway.ZeroTrustFilter ApiFirewall.KeyValue
open ApiFirewall.Reactive

variable {K : Type}

/-- The call hands the request to the backend. -/
def isChain : Op K → Bool
  | .chain _ => true
  | _ => false

/-- The call is part of turning the request away: it sets the status or blocks the client. -/
def isRejection : Op K → Bool
  | .setStatusCode _ => true
  | .redis (.set _ _ _) => true
  | _ => false

/-- What must have happened before a request is handed on. -/
structure Gate [Field K] (properties : SecurityProperties K) (exchange : Exchange)
    (before : Events K) : Prop where
  authenticated : exchange.path ∈ publicPaths ∨ ∃ token c,
    JwtAuthValidator.bearerToken (exchange.getFirst "Authorization") = some token ∧
      Event.top (.parseSignedClaims token) (.value (.claims c)) ∈ before
  notBlocked : ∃ clientIp, resolveClientIp exchange = some clientIp ∧
    lookup clientIp (.value false) ∈ before
  cleared : ∃ clientIp rate10s, resolveClientIp exchange = some clientIp ∧
    (⟨[.first], .redis (.increment (RedisStateService.countKey clientIp exchange.path)),
      .value rate10s⟩ : Event (Op K) Res) ∈ before ∧
    (isHighRisk properties exchange.path rate10s = true → ∃ signal reply result,
      Event.top (.postScore signal) reply ∈ before ∧ scored reply = some result ∧
        result.decision ≠ some "BLOCK")
  unrejected : ∀ e ∈ before, ¬ isRejection e.op

/-- Calls that only collect neither hand a request on nor reject it. -/
private theorem quiet_of_collecting {op : Op K} (h : Collecting op) :
    ¬ isChain op ∧ ¬ isRejection op := by
  cases op with
  | redis c => cases c <;> first | exact h.elim | simp [isChain, isRejection]
  | _ => first | exact h.elim | simp [isChain, isRejection]

/-- Publishing neither hands a request on nor rejects it. -/
private theorem quiet_of_published {clientIp method path : String} {signal : RequestSignalDTO K}
    {pub : Events K} (h : Published clientIp method path signal pub) :
    ∀ e ∈ pub, ¬ isChain e.op ∧ ¬ isRejection e.op := by
  rcases h with ⟨r, -, rfl⟩ | ⟨s, r, rfl⟩ <;> simp [Event.top, isChain, isRejection]

/-- A refused request is not handed on. -/
private theorem not_chain_of_refused {exchange : Exchange} {m' : Program K Unit} {tr : Events K}
    (h : Refused exchange m' tr) : ∀ e ∈ tr, ¬ isChain e.op := by
  intro e he
  rcases collecting_or_rejecting_of_refused h e he with hcollecting | hrejecting
  · exact (quiet_of_collecting hcollecting).1
  · cases hop : e.op <;> simp [hop, Rejecting, isChain] at hrejecting ⊢

section Gate

variable [Field K] {platform : Platform K} {properties : SecurityProperties K}
  {exchange : Exchange} {m' : Program K Unit}

/-- Authentication and the lookup open the gate; the rest of it is about the score. -/
private theorem gate_of_admitted {clientIp : String} {claims : Option Claims}
    {pre counts mid : Events K} {rate10s rate60s failStreak : ℤ}
    (hpre : Admitted exchange clientIp claims pre)
    (hcounts : Counting clientIp exchange.path claims counts (.done (.value rate10s))
      (.done (.value rate60s)) (.done (.value failStreak)))
    (hmid : ∀ e ∈ mid, ¬ isRejection e.op)
    (hcleared : isHighRisk properties exchange.path rate10s = true → ∃ signal reply result,
      Event.top (.postScore signal) reply ∈ mid ∧ scored reply = some result ∧
        result.decision ≠ some "BLOCK") :
    Gate properties exchange (pre ++ (counts ++ mid)) where
  authenticated := by
    obtain ⟨-, auth, body, rfl, hauth, -⟩ := hpre
    cases hauth with
    | publicPath hpath => exact .inl hpath
    | @token token c hpath htoken => exact .inr ⟨token, c, htoken, by simp⟩
  notBlocked := by
    obtain ⟨hresolved, auth, body, rfl, -, -⟩ := hpre
    exact ⟨clientIp, hresolved, by simp⟩
  cleared := by
    refine ⟨clientIp, rate10s, hpre.resolved, ?_, fun hrisk => ?_⟩
    · simp [(counted_of_counting hcounts).first]
    · obtain ⟨signal, reply, result, hmem, hscored, hdecision⟩ := hcleared hrisk
      exact ⟨signal, reply, result, by simp [hmem], hscored, hdecision⟩
  unrejected := by
    intro e he
    rcases phase_of_mem hpre hcounts he with hpreliminary | hcounter | hmem
    · exact (quiet_of_collecting hpreliminary.collecting).2
    · exact (quiet_of_collecting hcounter.collecting).2
    · exact hmid e hmem

omit [Field K] in
/-- Quiet calls that end in handing the request on have not handed it on yet, or do so last. -/
private theorem last_of_quiet {quiet : List (Op K)} {tr : Events K}
    (hquiet : ∀ op ∈ quiet, ¬ isChain op ∧ ¬ isRejection op)
    (h : tr.map Event.op <+: quiet ++ [.chain exchange]) :
    (∀ e ∈ tr, ¬ isChain e.op) ∨ ∃ mid z, tr = mid ++ [z] ∧
      ∀ e ∈ mid, ¬ isChain e.op ∧ ¬ isRejection e.op := by
  rcases List.prefix_concat_iff.mp h with hall | hsome
  · obtain ⟨mid, last, rfl, hmid, hlast⟩ := List.map_eq_append_iff.mp hall
    obtain ⟨z, rfl, -⟩ := List.map_eq_singleton_iff.mp hlast
    have hinitial : mid.map Event.op <+: quiet := hmid ▸ List.prefix_rfl
    exact .inr ⟨mid, z, rfl,
      forall_of_isPrefix (fun op => ¬ isChain op ∧ ¬ isRejection op) hinitial hquiet⟩
  · exact .inl (forall_of_isPrefix (fun op => ¬ isChain op) hsome fun op hop => (hquiet op hop).1)

/-- A routed request is not handed on, or it is handed on last, after a score that does not block
it if it is high-risk. -/
private theorem route_last {clientIp path : String} {rate10s : ℤ} {signal : RequestSignalDTO K}
    {rest : Events K}
    (h : Routed platform properties exchange clientIp path rate10s signal m' rest) :
    (∀ e ∈ rest, ¬ isChain e.op) ∨ ∃ mid z, rest = mid ++ [z] ∧
      (∀ e ∈ mid, ¬ isChain e.op ∧ ¬ isRejection e.op) ∧
      (isHighRisk properties path rate10s = true → ∃ signal reply result,
        Event.top (.postScore signal) reply ∈ mid ∧ scored reply = some result ∧
          result.decision ≠ some "BLOCK") := by
  cases h with
  | waiting => exact .inl (by simp)
  | direct hrisk hchain =>
    have hops : rest.map Event.op <+: [] ++ [.chain exchange] := hchain.1
    rcases last_of_quiet (by simp) hops with hnone | ⟨mid, z, hsplit, hmid⟩
    · exact .inl hnone
    · exact .inr ⟨mid, z, hsplit, hmid, by simp [hrisk]⟩
  | undecided => exact .inl (by simp [Event.top, isChain])
  | @enforced reply result after _ hscored henforce =>
    have hops := henforce.1
    by_cases hblock : result.decision = some "BLOCK"
    · refine .inl (List.forall_mem_cons.mpr ⟨Bool.false_ne_true, ?_⟩)
      refine forall_of_isPrefix (fun op => ¬ isChain op) hops ?_
      rw [enforcement, if_pos hblock]
      cases result.reason <;> simp [isChain]
    · have hops : after.map Event.op <+:
          [.addHeader "X-Risk-Level" result.decision,
           .addHeader "X-Risk-Score" (some (platform.showDouble result.finalScore))] ++
            [.chain exchange] := by
        rw [enforcement, if_neg hblock] at hops
        exact hops
      rcases last_of_quiet (by simp [isChain, isRejection]) hops with
        hnone | ⟨headers, z, rfl, hheaders⟩
      · exact .inl (List.forall_mem_cons.mpr ⟨Bool.false_ne_true, hnone⟩)
      · exact .inr ⟨.top (.postScore signal) reply :: headers, z, rfl,
          List.forall_mem_cons.mpr ⟨⟨Bool.false_ne_true, Bool.false_ne_true⟩, hheaders⟩,
          fun _ => ⟨signal, reply, result, List.mem_cons_self .., hscored, hblock⟩⟩

/-- A request is handed on last, and only through the gate. -/
theorem gate_of_progress {tr before after : Events K} {e : Event (Op K) Res}
    (h : Progress platform properties exchange m' tr) (hsplit : tr = before ++ e :: after)
    (he : isChain e.op) : Gate properties exchange before ∧ after = [] := by
  have hmem : e ∈ tr := by simp [hsplit]
  cases h with
  | refused href => exact absurd he (not_chain_of_refused href e hmem)
  | counting hm hpre hcounts =>
    rcases List.mem_append.mp hmem with hmem | hmem
    · exact absurd he (quiet_of_collecting (hpre.preliminary e hmem).collecting).1
    · exact absurd he (quiet_of_collecting (collecting_of_counting hcounts e hmem)).1
  | counted hm hpre hcounts hrest =>
    rcases phase_of_mem hpre hcounts hmem with hpreliminary | hcounter | hmem
    · exact absurd he (quiet_of_collecting hpreliminary.collecting).1
    · exact absurd he (quiet_of_collecting hcounter.collecting).1
    · rcases hrest e hmem with hop | hop <;> simp [hop, isChain] at he
  | @published clientIp bodyString claims buffers pre counts pub rest rate10s rate60s failStreak
      clocks signal hpre hcounts hsignal hpub hroute =>
    have hquiet : ∀ a ∈ Event.top .readClocks (.value clocks) :: pub,
        ¬ isChain a.op ∧ ¬ isRejection a.op := by
      intro a ha
      rcases List.mem_cons.mp ha with rfl | ha
      · exact ⟨Bool.false_ne_true, Bool.false_ne_true⟩
      · exact quiet_of_published hpub a ha
    have hfront : ∀ mid : Events K, (∀ a ∈ mid, ¬ isChain a.op) →
        ∀ a ∈ pre ++ (counts ++ .top .readClocks (.value clocks) :: (pub ++ mid)),
          ¬ isChain a.op := by
      intro mid hmid a ha
      rcases phase_of_mem hpre hcounts ha with hpreliminary | hcounter | ha
      · exact (quiet_of_collecting hpreliminary.collecting).1
      · exact (quiet_of_collecting hcounter.collecting).1
      · rw [← List.cons_append] at ha
        rcases List.mem_append.mp ha with ha | ha
        · exact (hquiet a ha).1
        · exact hmid a ha
    rcases route_last hroute with hnone | ⟨mid, z, rfl, hmid, hcleared⟩
    · exact absurd he (hfront rest hnone e hmem)
    · have hlist : (pre ++ (counts ++ Event.top .readClocks (.value clocks) :: (pub ++ mid))) ++ [z] =
          before ++ e :: after := by
        rw [← hsplit]
        simp
      obtain ⟨rfl, rfl⟩ := List.eq_last hlist (hfront mid fun a ha => (hmid a ha).1) he
      refine ⟨gate_of_admitted hpre hcounts (fun a ha => ?_) fun hrisk => ?_, rfl⟩
      · rw [← List.cons_append] at ha
        rcases List.mem_append.mp ha with ha | ha
        · exact (hquiet a ha).2
        · exact (hmid a ha).2
      · obtain ⟨signal, reply, result, hin, hscored, hdecision⟩ := hcleared hrisk
        exact ⟨signal, reply, result, by simp [hin], hscored, hdecision⟩

end Gate

open Deployment in
/-- In every run and however its calls end, a request is handed on at most once, only through the
gate, and never if it is turned away. -/
theorem chain_only_through_gate [Field K] [LinearOrder K] [FloorRing K] (d : Deployment K)
    {w : State K} (hrun : d.system.Run Anything start w) {i : ℕ} {exchange : Exchange}
    (hi : w.labels[i]? = some (.request exchange)) :
    (w.events i).countP (fun e => isChain e.op) ≤ 1 ∧
      (∀ before e after, w.events i = before ++ e :: after → isChain e.op = true →
        Gate d.properties exchange before) ∧
      ((∃ e ∈ w.events i, isRejection e.op = true) → ∀ e ∈ w.events i, isChain e.op = false) := by
  obtain ⟨m', hprogress⟩ := progress hrun hi
  have hgate : ∀ before e after, w.events i = before ++ e :: after → isChain e.op = true →
      Gate d.properties exchange before ∧ after = [] :=
    fun before e after hsplit he => gate_of_progress hprogress hsplit he
  refine ⟨?_, fun before e after hsplit he => (hgate before e after hsplit he).1, ?_⟩
  · by_cases hchain : ∃ e ∈ w.events i, isChain e.op = true
    · obtain ⟨e, hmem, he⟩ := hchain
      obtain ⟨before, after, hsplit⟩ := List.append_of_mem hmem
      obtain ⟨-, rfl⟩ := hgate before e after hsplit he
      have hbefore : before.countP (fun e => isChain e.op) = 0 := by
        refine List.countP_eq_zero.mpr fun a ha hchain => ?_
        obtain ⟨front, back, rfl⟩ := List.append_of_mem ha
        obtain ⟨-, hnil⟩ := hgate front a (back ++ [e]) (by simp [hsplit]) hchain
        simp at hnil
      rw [hsplit, List.countP_append, hbefore, List.countP_singleton, if_pos he]
    · rw [List.countP_eq_zero.mpr fun e he hchain' => hchain ⟨e, he, hchain'⟩]
      exact Nat.zero_le 1
  · rintro ⟨r, hr, hreject⟩ e he
    by_contra hchain
    have hchain : isChain e.op = true := by simpa using hchain
    obtain ⟨before, after, hsplit⟩ := List.append_of_mem he
    obtain ⟨hopen, rfl⟩ := hgate before e after hsplit hchain
    rw [hsplit] at hr
    rcases List.mem_append.mp hr with hmem | hmem
    · exact hopen.unrejected r hmem hreject
    · obtain rfl := List.mem_singleton.mp hmem
      revert hchain hreject
      cases r.op with
      | redis c => cases c <;> simp [isChain]
      | _ => simp [isChain, isRejection]

/-- A run in which one request registers a user. -/
def registration : Deployment.State ℚ :=
  Deployment.sample.system.after
    (.spawn (.request (Deployment.sampleRequest "/api/auth/register" "10.0.0.1")) ::
      Deployment.callTop 1 0 Deployment.sampleEnv ++
      Deployment.callCounters true 0 Deployment.sampleEnv ++
      Deployment.callTop 4 0 Deployment.sampleEnv) Deployment.start

/-- The request of that run is handed on through the gate. -/
theorem registration_through_gate : ∃ before e, registration.events 0 = before ++ [e] ∧
    isChain e.op = true ∧ Gate Deployment.sample.properties
      (Deployment.sampleRequest "/api/auth/register" "10.0.0.1") before :=
  ⟨(registration.events 0).take 9, _, rfl, rfl,
    (chain_only_through_gate Deployment.sample (System.Run.after rfl fun _ _ => trivial)
      (show registration.labels[0]? = some (.request _) from rfl)).2.1 _ _ [] rfl rfl⟩

end ApiFirewall.Guarantees
