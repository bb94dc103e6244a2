import ApiFirewall.Guarantees.Disposition
import ApiFirewall.Guarantees.ScoreAgreement
import ApiFirewall.Wire.UnescapedText

/-!
# What a rejection tells the client

A rejection puts its reason between quotation marks without escapes. The two reasons of the gateway
itself and the one of the engine are plain texts, so a client reads them from the body; another
reason, which the engine could answer with, is read only if it is plain too. Whatever the reason, the
body comes last, after the status that belongs to it, and, if the engine asked for the rejection,
after the client was put on the blocklist.
-/

namespace ApiFirewall.Guarantees

open ApiFirewall.Wire ApiFirewall.Wire.JsonText ApiFirewall.Gateway
open ApiFirewall.Gateway.ZeroTrustFilter ApiFirewall.Engine ApiFirewall.KeyValue
open ApiFirewall.Reactive Deployment

variable {K : Type}

/-- The text that a rejection writes. -/
def rejectionText (reason : String) : String := "\x7b\"error\":\"" ++ reason ++ "\"\x7d"

/-- What a rejection is to tell. -/
def errorBody (reason : String) : Json K := .obj [("error", .str reason)]

/-- The text is an object with one member, set without escapes. -/
theorem rejectionText_eq (reason : String) :
    (rejectionText reason : Text) = unescapedMember ("error" : Text) reason := by
  simp [rejectionText, unescapedMember, Text.ofString]

/-- The text tells the reason exactly if the reason is plain. -/
theorem reads_rejectionText_iff (dialect : Dialect K) {reason : String} :
    readDocument dialect (rejectionText reason) = some (errorBody reason) ↔
      ∀ c ∈ (reason : Text), Plain c := by
  have hname : ∀ c ∈ ("error" : Text), Plain c := by decide
  rw [rejectionText_eq, ← readDocument_unescaped_iff hname]
  rfl

section Filter

variable [Field K] {platform : Platform K} {properties : SecurityProperties K} {exchange : Exchange}
  {m' : Program K Unit} {e : Event (Op K) Res}

/-- Why a request is rejected: the status and the reason of its rejection, and what was called
between the two to keep the client away. -/
inductive Cause (properties : SecurityProperties K) (exchange : Exchange) (tr : Events K) :
    ℕ → String → List (Op K) → Prop where
  | unauthenticated (hpath : exchange.path ∉ publicPaths)
      (htoken : ∀ token c, .top (.parseSignedClaims token) (.value (.claims c)) ∉ tr) :
      Cause properties exchange tr 401 "Missing or invalid credentials" []
  | blocked {clientIp : String} (hresolved : resolveClientIp exchange = some clientIp)
      (hlookup : lookup clientIp (.value true) ∈ tr) :
      Cause properties exchange tr 403 "Client is temporarily blocked" []
  | scored {clientIp text : String} {signal : RequestSignalDTO K}
      {reply : Signal (ScoreResponseDTO K)} {result : ScoreResponseDTO K}
      (hresolved : resolveClientIp exchange = some clientIp)
      (hmem : .top (.postScore signal) reply ∈ tr) (hscored : scored reply = some result)
      (hblock : result.decision = some "BLOCK") (hreason : result.reason = some text) :
      Cause properties exchange tr 403 ("Request blocked by threat engine: " ++ text)
        [blockingWrite properties clientIp text]

/-- The calls of a request that has written a rejection: what it gathered, perhaps a score, and then
nothing but the rejection. -/
def Rejected (properties : SecurityProperties K) (exchange : Exchange) (tr : Events K)
    (status : ℕ) (reason : String) : Prop :=
  ∃ before blocking, Cause properties exchange tr status reason blocking ∧
    (∀ op ∈ before, Gathering op ∨ ∃ signal, op = .postScore signal) ∧
    tr.map Event.op = before ++
      .setStatusCode status :: jsonHeader :: (blocking ++ [.writeWith (rejectionText reason)])

/-- A call that writes an answer. -/
def isWrite : Op K → Bool
  | .writeWith _ => true
  | _ => false

omit [Field K] in
/-- A call that writes gathers nothing. -/
theorem not_gathering_of_isWrite {op : Op K} (h : isWrite op = true) : ¬ Gathering op := by
  intro hgather
  have hquiet := hgather.not_acting
  cases op <;> first | exact hquiet trivial | cases h

omit [Field K] in
/-- What follows a sequence without a write does not write. -/
theorem not_isWrite_of_isPrefix {tr : Events K} {ops : List (Op K)} (h : tr.map Event.op <+: ops)
    (hops : ∀ op ∈ ops, isWrite op = false) (hmem : e ∈ tr) : ¬ isWrite e.op = true :=
  Bool.eq_false_iff.mp (hops e.op (h.subset (List.mem_map_of_mem hmem)))

omit [Field K] in
/-- Calls that follow a sequence with one write, at its end, are all of it if they have written. -/
theorem eq_of_isPrefix_of_isWrite {tr : Events K} {ops : List (Op K)} {last : Op K}
    (h : tr.map Event.op <+: ops ++ [last]) (hops : ∀ op ∈ ops, isWrite op = false)
    (hmem : e ∈ tr) (hwrite : isWrite e.op = true) :
    tr.map Event.op = ops ++ [last] := by
  rcases List.prefix_concat_iff.mp h with hall | hsome
  · exact hall
  · exact absurd hwrite (not_isWrite_of_isPrefix hsome hops hmem)

omit [Field K] in
/-- A rejection that has written has done all of its calls. -/
theorem ops_of_rejection {status : ℕ} {reason : String} {rej : Events K}
    (h : Follows (rejection status reason) rej m') (hmem : e ∈ rej)
    (hwrite : isWrite e.op = true) :
    rej.map Event.op =
      .setStatusCode status :: jsonHeader :: ([] ++ [.writeWith (rejectionText reason)]) :=
  have hquiet : ∀ op ∈ ([.setStatusCode status, jsonHeader] : List (Op K)), isWrite op = false := by
    simp [isWrite, jsonHeader]
  eq_of_isPrefix_of_isWrite h.1 hquiet hmem hwrite

/-- A refused request that has written was rejected. -/
theorem rejected_of_refused {tr : Events K} (h : Refused exchange m' tr) (hmem : e ∈ tr)
    (hwrite : isWrite e.op = true) :
    ∃ status reason, Rejected properties exchange tr status reason := by
  cases h with
  | waiting hm hpre =>
    exact absurd (.inl (hpre e hmem).collecting) (not_gathering_of_isWrite hwrite)
  | @unauthenticated auth rej hauth hrej =>
    have hgather : ∀ op ∈ auth.map Event.op, Gathering op := by
      cases hauth with
      | missing => simp
      | rejected => simp [Event.top, Gathering, Collecting]
    have hrejected : e ∈ rej := by
      refine (List.mem_append.mp hmem).resolve_left fun hauth => ?_
      exact not_gathering_of_isWrite hwrite (hgather _ (List.mem_map_of_mem hauth))
    refine ⟨401, _, auth.map Event.op, [], .unauthenticated ?_ ?_, fun op hop =>
      .inl (hgather op hop), ?_⟩
    · cases hauth <;> assumption
    · intro token c htoken
      rcases List.mem_append.mp htoken with htoken | htoken
      · cases hauth with
        | missing => simp at htoken
        | rejected => simp [Event.top] at htoken
      · exact rejecting_of_rejection hrej _ htoken
    · rw [List.map_append, ops_of_rejection hrej hrejected hwrite]
  | @blocked clientIp claims auth rej hresolved hauth hrej =>
    have hgather : ∀ a ∈ auth ++ [lookup clientIp (.value true)], Gathering a.op := by
      intro a ha
      rcases List.mem_append.mp ha with ha | ha
      · exact .inl (hauth.preliminary a ha).collecting
      · obtain rfl := List.mem_singleton.mp ha
        exact .inl trivial
    rw [List.append_cons] at hmem ⊢
    have hrejected : e ∈ rej := by
      refine (List.mem_append.mp hmem).resolve_left fun hbefore => ?_
      exact not_gathering_of_isWrite hwrite (hgather e hbefore)
    refine ⟨403, _, (auth ++ [lookup clientIp (.value true)]).map Event.op, [],
      .blocked hresolved (by simp), ?_, ?_⟩
    · intro op hop
      obtain ⟨a, ha, rfl⟩ := List.mem_map.mp hop
      exact .inl (hgather a ha)
    · rw [List.map_append, ops_of_rejection hrej hrejected hwrite]

omit [Field K] in
/-- Acting on a score writes only where it blocks with a reason. -/
theorem ops_of_enforcement {clientIp : String} {result : ScoreResponseDTO K} {tr : Events K}
    (h : Follows (enforcement platform properties exchange clientIp result) tr m') (hmem : e ∈ tr)
    (hwrite : isWrite e.op = true) :
    ∃ text, result.decision = some "BLOCK" ∧ result.reason = some text ∧
      tr.map Event.op = .setStatusCode 403 :: jsonHeader ::
        ([blockingWrite properties clientIp text] ++
          [.writeWith (rejectionText ("Request blocked by threat engine: " ++ text))]) := by
  have hops := h.1
  unfold enforcement at hops
  split at hops
  · rename_i hblock
    cases hreason : result.reason with
    | none =>
      rw [hreason] at hops
      exact absurd hwrite (not_isWrite_of_isPrefix hops (by simp [isWrite]) hmem)
    | some text =>
      rw [hreason] at hops
      have hquiet : ∀ op ∈ ([.setStatusCode 403, jsonHeader,
          blockingWrite properties clientIp text] : List (Op K)), isWrite op = false := by
        simp [isWrite, jsonHeader, blockingWrite]
      exact ⟨text, hblock, rfl, eq_of_isPrefix_of_isWrite hops hquiet hmem hwrite⟩
  · exact absurd hwrite (not_isWrite_of_isPrefix hops (by simp [isWrite]) hmem)

/-- A request that was routed and has written was scored and rejected. -/
theorem rejected_of_routed {clientIp path : String} {rate10s : ℤ} {signal : RequestSignalDTO K}
    {early rest : Events K} {buffers : List Bytes}
    (h : Routed platform properties { exchange with body := buffers } clientIp path rate10s signal m'
      rest)
    (hresolved : resolveClientIp exchange = some clientIp) (hearly : ∀ a ∈ early, Gathering a.op)
    (hmem : e ∈ early ++ rest) (hwrite : isWrite e.op = true) :
    ∃ status reason, Rejected properties exchange (early ++ rest) status reason := by
  have hlate : e ∈ rest := by
    refine (List.mem_append.mp hmem).resolve_left fun hbefore => ?_
    exact not_gathering_of_isWrite hwrite (hearly e hbefore)
  cases h with
  | waiting => simp at hlate
  | direct _ hchain =>
    exact absurd hwrite (not_isWrite_of_isPrefix hchain.1 (by simp [isWrite]) hlate)
  | undecided =>
    obtain rfl := List.mem_singleton.mp hlate
    cases hwrite
  | @enforced reply result tr _ hreply henforce =>
    have htr : e ∈ tr := by
      rcases List.mem_cons.mp hlate with rfl | htr
      · cases hwrite
      · exact htr
    obtain ⟨text, hblock, hreason, hops⟩ := ops_of_enforcement henforce htr hwrite
    refine ⟨403, _, early.map Event.op ++ [.postScore signal], _,
      .scored hresolved (List.mem_append_right early (List.mem_cons_self ..)) hreply hblock hreason,
      ?_, ?_⟩
    · intro op hop
      rcases List.mem_append.mp hop with hop | hop
      · obtain ⟨a, ha, rfl⟩ := List.mem_map.mp hop
        exact .inl (hearly a ha)
      · exact .inr ⟨signal, List.mem_singleton.mp hop⟩
    · rw [List.map_append, List.map_cons, hops]
      simp [Event.top]

omit [Field K] in
/-- Publishing gathers. -/
theorem gathering_of_published {clientIp method path : String} {signal : RequestSignalDTO K}
    {pub : Events K} (h : Published clientIp method path signal pub) :
    ∀ a ∈ pub, Gathering a.op := by
  rcases h with ⟨r, -, rfl⟩ | ⟨s, r, rfl⟩ <;> simp [Event.top, Gathering, Collecting]

/-- A request that has written was rejected. -/
theorem rejected_of_progress {tr : Events K} (h : Progress platform properties exchange m' tr)
    (hmem : e ∈ tr) (hwrite : isWrite e.op = true) :
    ∃ status reason, Rejected properties exchange tr status reason := by
  have hloud := not_gathering_of_isWrite hwrite
  cases h with
  | refused href => exact rejected_of_refused href hmem hwrite
  | counting _ hpre hcounts =>
    rcases List.mem_append.mp hmem with hmem | hmem
    · exact absurd (.inl (hpre.preliminary e hmem).collecting) hloud
    · exact absurd (.inl (collecting_of_counting hcounts e hmem)) hloud
  | counted _ hpre hcounts hrest =>
    rcases phase_of_mem hpre hcounts hmem with hpreliminary | hcounter | hmem
    · exact absurd (.inl hpreliminary.collecting) hloud
    · exact absurd (.inl hcounter.collecting) hloud
    · rcases hrest e hmem with hop | hop <;> simp [hop, isWrite] at hwrite
  | @published clientIp bodyString claims buffers pre counts pub rest rate10s rate60s failStreak
      clocks signal hpre hcounts _ hpub hroute =>
    have hassoc : pre ++ (counts ++ .top .readClocks (.value clocks) :: (pub ++ rest)) =
        (pre ++ (counts ++ .top .readClocks (.value clocks) :: pub)) ++ rest := by simp
    rw [hassoc] at hmem ⊢
    refine rejected_of_routed hroute hpre.resolved (fun a ha => ?_) hmem hwrite
    rcases phase_of_mem hpre hcounts ha with hpreliminary | hcounter | ha
    · exact .inl hpreliminary.collecting
    · exact .inl hcounter.collecting
    · rcases List.mem_cons.mp ha with rfl | ha
      · exact .inl trivial
      · exact gathering_of_published hpub a ha

/-- The text that a rejected request has written is that of its reason. -/
theorem Rejected.body_eq {tr : Events K} {status : ℕ} {reason body : String}
    (h : Rejected properties exchange tr status reason) {path : List Branch} {reply : Signal Unit}
    (hmem : ⟨path, .writeWith body, reply⟩ ∈ tr) : body = rejectionText reason := by
  obtain ⟨before, blocking, hcause, hbefore, hops⟩ := h
  have hop : .writeWith body ∈ tr.map Event.op := List.mem_map_of_mem hmem
  rw [hops] at hop
  rcases List.mem_append.mp hop with hop | hop
  · rcases hbefore _ hop with hgather | ⟨signal, hsignal⟩
    · exact absurd trivial hgather.not_acting
    · cases hsignal
  · have hblocking : .writeWith body ∉ blocking := by cases hcause <;> simp [blockingWrite]
    simpa [jsonHeader, hblocking] using hop

end Filter

section Runs

variable [Field K] [LinearOrder K] [FloorRing K] {d : Deployment K} {w : State K}

/-- In every run, whatever the engine answers: a request that has written a body was rejected, for a
cause that its calls show, and has done nothing since; and the body, read as JSON, tells the reason
exactly if every character of the reason is plain. -/
theorem rejection_told_iff {P : Action Stimulus (Env K) → Prop} (hrun : d.system.Run P start w)
    {i : ℕ} {exchange : Exchange} (hi : w.labels[i]? = some (.request exchange))
    {path : List Branch} {body : String} {reply : Signal Unit}
    (hmem : ⟨path, .writeWith body, reply⟩ ∈ w.events i) (dialect : Dialect K) :
    ∃ status reason, Rejected d.properties exchange (w.events i) status reason ∧
      (readDocument dialect body = some (errorBody reason) ↔
        ∀ c ∈ (reason : Text), Plain c) := by
  obtain ⟨m', hprogress⟩ := progress hrun hi
  obtain ⟨status, reason, hrejected⟩ := rejected_of_progress hprogress hmem rfl
  rw [hrejected.body_eq hmem]
  exact ⟨status, reason, hrejected, reads_rejectionText_iff dialect⟩

/-- The reasons of the gateway and the reason of the engine. -/
def ownReasons : List String :=
  ["Missing or invalid credentials", "Client is temporarily blocked",
   "Request blocked by threat engine: " ++ EnsembleThreatModel.blockReason]

omit [Field K] [LinearOrder K] [FloorRing K] in
/-- They are plain. -/
theorem plain_of_ownReasons : ∀ reason ∈ ownReasons, ∀ c ∈ (reason : Text), Plain c := by
  decide +kernel

/-- A result that blocks has the reason of blocks. -/
theorem reason_of_scoreSignal {engine : EngineConfig K} {signal : Json K} {result : ScoreResult K}
    (h : KafkaConsumer.scoreSignal engine signal = some result) (hblock : result.decision = .block) :
    result.reason = EnsembleThreatModel.blockReason := by
  unfold KafkaConsumer.scoreSignal at h
  obtain ⟨valid, -, h⟩ := Option.bind_eq_some_iff.mp h
  obtain ⟨vector, -, hscore⟩ := Option.bind_eq_some_iff.mp h
  exact engine.model.reason_of_block hscore hblock

/-- In every run in which the engine answers for itself, the body of every rejection is a JSON object
that tells its reason, one of three. -/
theorem rejection_told {link : ScoreLink K} {P : Action Stimulus (Env K × Transport) → Prop}
    (hrun : (engineSystem d link).Run P start w) {i : ℕ} {exchange : Exchange}
    (hi : w.labels[i]? = some (.request exchange)) {path : List Branch} {body : String}
    {reply : Signal Unit} (hmem : ⟨path, .writeWith body, reply⟩ ∈ w.events i)
    (dialect : Dialect K) :
    ∃ status, ∃ reason ∈ ownReasons, Rejected d.properties exchange (w.events i) status reason ∧
      readDocument dialect body = some (errorBody reason) := by
  obtain ⟨m', hprogress⟩ := progress (run_of_engineRun hrun) hi
  obtain ⟨status, reason, hrejected⟩ := rejected_of_progress hprogress hmem rfl
  have hown : reason ∈ ownReasons := by
    obtain ⟨before, blocking, hcause, -, -⟩ := id hrejected
    cases hcause with
    | unauthenticated => simp [ownReasons]
    | blocked => simp [ownReasons]
    | @scored clientIp text signal reply result hresolved hasked hscored hblock hreason =>
      obtain ⟨score, hscore, rfl⟩ := result_of_scored hrun hasked hscored (by simp [hblock])
      have hdecision := Decision.text_eq_block.mp (Option.some.inj hblock)
      rw [← Option.some.inj hreason, reason_of_scoreSignal hscore hdecision]
      simp [ownReasons]
  refine ⟨status, reason, hown, hrejected, ?_⟩
  rw [hrejected.body_eq hmem]
  exact (reads_rejectionText_iff dialect).mpr (plain_of_ownReasons reason hown)

end Runs

/-- A strict reader of a client. -/
def clientDialect : Dialect ℚ where
  constants := false
  decimal := fun _ => .finite 0

/-- How many members a value has. -/
def memberCount : Json K → ℕ
  | .obj members => members.length
  | _ => 0

/-- The text that a call writes. -/
def writtenText : Event (Op K) Res → Option String
  | ⟨_, .writeWith body, _⟩ => some body
  | _ => none

/-- Only a call that writes has a text. -/
theorem writeWith_of_writtenText {e : Event (Op K) Res} {body : String}
    (h : writtenText e = some body) : ∃ path reply, e = ⟨path, .writeWith body, reply⟩ := by
  unfold writtenText at h
  split at h
  · cases h
    exact ⟨_, _, rfl⟩
  · cases h

/-- The engine blocks for a reason that is not plain. -/
def injectingEnv : Env ℚ :=
  { sampleEnv with score := .value { blockingScore with reason := some "x\",\"y\":\"z" } }

/-- A run in which a login is rejected for that reason. -/
def injectedLogin : State ℚ :=
  sample.system.after
    (.spawn (.request (sampleRequest "/api/auth/login" "10.0.0.1")) ::
      callTop 1 0 injectingEnv ++ callCounters true 0 injectingEnv ++ callTop 8 0 injectingEnv) start

/-- The body that the login is answered with has two members, so its reason is not plain. -/
theorem injectedLogin_misread : ∃ status reason, Rejected sample.properties
    (sampleRequest "/api/auth/login" "10.0.0.1") (injectedLogin.events 0) status reason ∧
      ∃ c ∈ (reason : Text), ¬ Plain c := by
  have hrun : sample.system.Run Anything start injectedLogin :=
    System.Run.after (by decide +kernel) fun _ _ => trivial
  obtain ⟨e, he, htext⟩ := Option.bind_eq_some_iff.mp
    (show ((injectedLogin.events 0).getLast?).bind writtenText = some
      "\x7b\"error\":\"Request blocked by threat engine: x\",\"y\":\"z\"\x7d" by decide +kernel)
  obtain ⟨path, reply, rfl⟩ := writeWith_of_writtenText htext
  have hlogin : injectedLogin.labels[0]? =
      some (.request (sampleRequest "/api/auth/login" "10.0.0.1")) :=
    requestAt_eq_some.mp (by decide +kernel)
  obtain ⟨status, reason, hrejected, htold⟩ :=
    rejection_told_iff hrun hlogin (List.mem_of_getLast? he) clientDialect
  refine ⟨status, reason, hrejected, by_contra fun hplain => ?_⟩
  have hread := htold.mpr fun c hc => by_contra fun hnot => hplain ⟨c, hc, hnot⟩
  have hone := congrArg (Option.map memberCount) hread
  have htwo : (readDocument clientDialect
      ("\x7b\"error\":\"Request blocked by threat engine: x\",\"y\":\"z\"\x7d" : String)).map
        memberCount = some 2 := by decide +kernel
  rw [htwo] at hone
  cases hone

/-- The client of the login that the engine has blocked is told why. -/
theorem scoredLogin_told : ∃ body, ∃ reason ∈ ownReasons,
    ((scoredLogin apartBody).events 0).getLast?.bind writtenText = some body ∧
      readDocument clientDialect body = some (errorBody reason) := by
  have hrun : (engineSystem telling sampleLink).Run (fun _ => True) start (scoredLogin apartBody) :=
    System.Run.after (by decide +kernel) fun _ _ => trivial
  obtain ⟨body, hbody⟩ := Option.isSome_iff_exists.mp
    (show (((scoredLogin apartBody).events 0).getLast?.bind writtenText).isSome = true by
      decide +kernel)
  obtain ⟨e, he, htext⟩ := Option.bind_eq_some_iff.mp hbody
  obtain ⟨path, reply, rfl⟩ := writeWith_of_writtenText htext
  have hlogin : (scoredLogin apartBody).labels[0]? = some (.request (loginWith apartBody)) :=
    requestAt_eq_some.mp (by decide +kernel)
  obtain ⟨-, reason, hown, -, htold⟩ :=
    rejection_told hrun hlogin (List.mem_of_getLast? he) clientDialect
  exact ⟨body, reason, hown, hbody, htold⟩

end ApiFirewall.Guarantees
