import ApiFirewall.Gateway.ZeroTrustFilter
import ApiFirewall.Reactive.Trace

/-!
# What a request can have done

Every trace of the filter falls into one of three phases. Either the request has not passed
authentication and the blocklist, and may have been rejected for it; or it is advancing the
counters; or it has its three counts and goes on to publish, score and decide. Later properties
of requests are read off these phases and never unfold the filter again.
-/

namespace ApiFirewall.Gateway

open ApiFirewall.KeyValue ApiFirewall.Reactive

/-- The calls of a request. -/
abbrev Events (K : Type) := List (Event (Op K) Res)

/-- The record that a call hands to the broker. -/
def sentRecord {K : Type} (e : Event (Op K) Res) : Option (ProducerRecord K) :=
  match e.op with
  | .send record => some record
  | _ => none

/-- A record that was handed to the broker was sent. -/
theorem op_of_sentRecord {K : Type} {e : Event (Op K) Res} {record : ProducerRecord K}
    (h : sentRecord e = some record) : e.op = .send record := by
  unfold sentRecord at h
  split at h
  · rename_i record' hop
    exact hop.trans (congrArg Op.send (Option.some.inj h))
  · simp at h

namespace ZeroTrustFilter

variable {K : Type}

/-- The calls of a rejection. -/
def rejection (status : ℕ) (reason : String) : List (Op K) :=
  [.setStatusCode status, .addHeader "Content-Type" (some "application/json"),
   .writeWith ("\x7b\"error\":\"" ++ reason ++ "\"\x7d")]

/-- A rejection sets the status, then the header, and writes the reason. -/
theorem reject_trace {status : ℕ} {reason : String} {tr : Events K} {m' : Program K Unit}
    (h : Trace (reject status reason) tr m') : Follows (rejection status reason) tr m' := by
  exact .cons h fun _ _ h => .cons h fun _ _ h => .await h

/-- The calls of a request that authentication lets through. -/
inductive Authenticated (exchange : Exchange) : Option Claims → Events K → Prop where
  | publicPath (hpath : exchange.path ∈ publicPaths) : Authenticated exchange none []
  | token {token : String} {c : Claims} (hpath : exchange.path ∉ publicPaths)
      (htoken : JwtAuthValidator.bearerToken (exchange.getFirst "Authorization") = some token) :
      Authenticated exchange (some c) [.top (.parseSignedClaims token) (.value (.claims c))]

/-- The calls of a request that authentication turns away. -/
inductive Unauthenticated (exchange : Exchange) : Events K → Prop where
  | missing (hpath : exchange.path ∉ publicPaths)
      (htoken : JwtAuthValidator.bearerToken (exchange.getFirst "Authorization") = none) :
      Unauthenticated exchange []
  | rejected {token : String} (hpath : exchange.path ∉ publicPaths)
      (htoken : JwtAuthValidator.bearerToken (exchange.getFirst "Authorization") = some token) :
      Unauthenticated exchange [.top (.parseSignedClaims token) (.value .rejected)]

/-- Authentication ends with the claims it accepts, or without any. -/
theorem authenticate_trace {exchange : Exchange} {tr : Events K} {claims : Option Claims}
    (h : Trace (authenticate exchange) tr (.done (.value claims))) :
    Authenticated exchange claims tr ∨ (claims = none ∧ Unauthenticated exchange tr) := by
  unfold authenticate at h
  split at h
  · rename_i hpath
    obtain ⟨rfl, hdone⟩ := h.of_done
    obtain rfl : claims = none := by simpa using hdone
    exact .inl (.publicPath hpath)
  · rename_i hpath
    unfold JwtAuthValidator.validate at h
    split at h
    · rename_i htoken
      obtain ⟨rfl, hdone⟩ := h.of_done
      obtain rfl : claims = none := by simpa using hdone
      exact .inr ⟨rfl, .missing hpath htoken⟩
    · rename_i token htoken
      rcases h.of_await_flatMap with ⟨hm, -⟩ | ⟨verdict, rest, rfl, hrest⟩
      · exact absurd ⟨claims, rfl⟩ hm
      · cases verdict with
        | claims c =>
          obtain ⟨rfl, hdone⟩ := hrest.of_done
          obtain rfl : claims = some c := by simpa using hdone
          exact .inl (.token hpath htoken)
        | rejected =>
          obtain ⟨rfl, hdone⟩ := hrest.of_done
          obtain rfl : claims = none := by simpa using hdone
          exact .inr ⟨rfl, .rejected hpath htoken⟩

/-- Authentication only parses tokens. -/
theorem authenticate_emits (exchange : Exchange) :
    (authenticate exchange : Program K (Option Claims)).Emits
      fun op => ∃ token, op = .parseSignedClaims token := by
  unfold authenticate JwtAuthValidator.validate
  split
  · trivial
  · split
    · trivial
    · exact Mono.emits_flatMap ⟨⟨_, rfl⟩, fun _ => trivial⟩ fun v => by cases v <;> trivial

/-- A lookup of a client in the blocklist. -/
def lookup (clientIp : String) (reply : Signal Bool) : Event (Op K) Res :=
  .top (.redis (.hasKey (RedisStateService.blocklistKey clientIp))) reply

/-- A call before the counters that does not find the client blocked. -/
def Preliminary : Event (Op K) Res → Prop
  | ⟨_, .parseSignedClaims _, _⟩ => True
  | ⟨_, .redis (.hasKey _), reply⟩ => reply ≠ .value true
  | ⟨_, .readBody _, _⟩ => True
  | _ => False

/-- Reading the body is at most one call. -/
def ReadsBody (exchange : Exchange) (body : Events K) : Prop :=
  body = [] ∨ ∃ r, body = [.top (.readBody exchange.body) r]

/-- The calls of a request that has passed authentication and the blocklist. -/
structure Admitted (exchange : Exchange) (clientIp : String) (claims : Option Claims)
    (pre : Events K) : Prop where
  resolved : resolveClientIp exchange = some clientIp
  steps : ∃ auth body, pre = auth ++ lookup clientIp (.value false) :: body ∧
    Authenticated exchange claims auth ∧ ReadsBody exchange body

/-- The calls of a request that has not passed authentication and the blocklist: it is still
under way or has failed, or it was turned away, or it was found on the blocklist. -/
inductive Refused (exchange : Exchange) (m' : Program K Unit) : Events K → Prop where
  | waiting {tr : Events K} (hm : ¬ m'.Completes) (h : ∀ e ∈ tr, Preliminary e) :
      Refused exchange m' tr
  | unauthenticated {auth rej : Events K} (hauth : Unauthenticated exchange auth)
      (hrej : Follows (rejection 401 "Missing or invalid credentials") rej m') :
      Refused exchange m' (auth ++ rej)
  | blocked {clientIp : String} {claims : Option Claims} {auth rej : Events K}
      (hresolved : resolveClientIp exchange = some clientIp)
      (hauth : Authenticated exchange claims auth)
      (hrej : Follows (rejection 403 "Client is temporarily blocked") rej m') :
      Refused exchange m' (auth ++ lookup clientIp (.value true) :: rej)

/-- The calls of authentication are preliminary. -/
theorem Authenticated.preliminary {exchange : Exchange} {claims : Option Claims}
    {auth : Events K} (h : Authenticated exchange claims auth) : ∀ e ∈ auth, Preliminary e := by
  cases h with
  | publicPath => simp
  | token => simp [Preliminary, Event.top]

/-- The calls before the counters are preliminary. -/
theorem Admitted.preliminary {exchange : Exchange} {clientIp : String} {claims : Option Claims}
    {pre : Events K} (h : Admitted exchange clientIp claims pre) : ∀ e ∈ pre, Preliminary e := by
  obtain ⟨-, auth, body, rfl, hauth, hbody⟩ := h
  intro e he
  rcases List.mem_append.mp he with hmem | hmem
  · exact hauth.preliminary e hmem
  · rcases List.mem_cons.mp hmem with rfl | hmem
    · simp [lookup, Preliminary, Event.top]
    · rcases hbody with rfl | ⟨r, rfl⟩
      · simp at hmem
      · obtain rfl := List.mem_singleton.mp hmem
        trivial

/-- The calls before the counters are at top level. -/
theorem Admitted.top {exchange : Exchange} {clientIp : String} {claims : Option Claims}
    {pre : Events K} (h : Admitted exchange clientIp claims pre) : ∀ e ∈ pre, e.path = [] := by
  obtain ⟨-, auth, body, rfl, hauth, hbody⟩ := h
  intro e he
  rcases List.mem_append.mp he with hmem | hmem
  · cases hauth with
    | publicPath => simp at hmem
    | token => exact congrArg Event.path (List.mem_singleton.mp hmem)
  · rcases List.mem_cons.mp hmem with rfl | hmem
    · rfl
    · rcases hbody with rfl | ⟨r, rfl⟩
      · simp at hmem
      · exact congrArg Event.path (List.mem_singleton.mp hmem)

/-- The calls of a window counter: it is incremented, and its window is set if the answer was 1;
the count is the answer. -/
inductive WindowCalls (key : String) (window : ℕ) (m' : Program K ℤ) : Events K → Prop where
  | idle (hm : ¬ m'.Completes) : WindowCalls key window m' []
  | counted (r : Signal ℤ) (hr : ∀ n, m'.outcome = some (.value n) → r = .value n) :
      WindowCalls key window m' [.top (.redis (.increment key)) r]
  | started (r : Signal Bool) (hr : ∀ n, m'.outcome = some (.value n) → n = 1) :
      WindowCalls key window m'
        [.top (.redis (.increment key)) (.value 1), .top (.redis (.expire key window)) r]

/-- The calls of the streak counter: it is incremented and its life extended; the count is the
answer to the increment, or zero if there was no answer. -/
inductive StreakCalls (key : String) (m' : Program K ℤ) : Events K → Prop where
  | idle (hm : ¬ m'.Completes) : StreakCalls key m' []
  | counted (r : Signal ℤ) (hr : ∀ n, m'.outcome = some (.value n) → r = .empty ∧ n = 0) :
      StreakCalls key m' [.top (.redis (.increment key)) r]
  | extended (count : ℤ) (r : Signal Bool) (hr : ∀ n, m'.outcome = some (.value n) → n = count) :
      StreakCalls key m' [.top (.redis (.increment key)) (.value count),
        .top (.redis (.expire key (minutes 15))) r]

/-- What a window counter does. -/
theorem incrementWindowCounter_trace {clientIp endpoint : String} {window : ℕ} {tr : Events K}
    {m' : Program K ℤ}
    (h : Trace (RedisStateService.incrementWindowCounter clientIp endpoint window) tr m') :
    WindowCalls (RedisStateService.countKey clientIp endpoint) window m' tr := by
  rcases h.of_await_flatMap with ⟨hm, rfl | ⟨r, rfl, -⟩⟩ | ⟨count, rest, rfl, hrest⟩
  · exact .idle hm
  · exact .counted r fun n hn => absurd ⟨n, hn⟩ hm
  · split at hrest
    · rename_i hone
      subst hone
      rcases hrest.of_await_thenReturn with ⟨rfl, hm⟩ | ⟨r, rfl, hend⟩
      · exact .counted _ fun n hn => by simp [hm] at hn
      · refine .started r fun n hn => ?_
        rcases hend _ hn with heq | heq
        · exact Signal.value.inj heq
        · simp at heq
    · obtain ⟨rfl, rfl⟩ := hrest.of_done
      exact .counted _ fun n hn => by simpa [Mono.outcome] using hn

/-- Extending a streak performs nothing, an increment that was not answered with a count, or an
increment and perhaps the extension of its life; it ends with the count. -/
theorem incrementFailedAuthStreak_trace {identity : String} {tr : Events K} {m' : Program K ℤ}
    (h : Trace (RedisStateService.incrementFailedAuthStreak identity) tr m') :
    (tr = [] ∧ m'.outcome = none) ∨
      (∃ r, tr = [.top (.redis (.increment (RedisStateService.failstreakKey identity))) r] ∧
        ∀ s, m'.outcome = some s → (r = .empty ∧ s = .empty) ∨ s = .error) ∨
      ∃ count r, tr =
        [.top (.redis (.increment (RedisStateService.failstreakKey identity))) (.value count),
          .top (.redis (.expire (RedisStateService.failstreakKey identity) (minutes 15))) r] ∧
        ∀ s, m'.outcome = some s → s = .value count ∨ s = .error := by
  rcases h.of_call with ⟨rfl, rfl⟩ | ⟨r, rest, rfl, hrest⟩
  · exact .inl ⟨rfl, rfl⟩
  · right
    cases r with
    | value count =>
      rcases Trace.of_await_thenReturn hrest with ⟨rfl, hm⟩ | ⟨r, rfl, hend⟩
      · exact .inl ⟨_, rfl, fun s hs => by simp [hm] at hs⟩
      · exact .inr ⟨count, r, rfl, hend⟩
    | empty =>
      obtain ⟨rfl, rfl⟩ := hrest.of_done
      exact .inl ⟨_, rfl, fun s hs => .inl ⟨rfl, (Option.some.inj hs).symm⟩⟩
    | error =>
      obtain ⟨rfl, rfl⟩ := hrest.of_done
      exact .inl ⟨_, rfl, fun s hs => .inr (Option.some.inj hs).symm⟩

/-- What the streak counter of a request does. -/
theorem streakCalls_of_trace {identity : String} {tr : Events K} {m' : Program K ℤ}
    (h : Trace ((RedisStateService.incrementFailedAuthStreak identity).defaultIfEmpty 0) tr m') :
    StreakCalls (RedisStateService.failstreakKey identity) m' tr := by
  obtain ⟨m₁, htr, hvalue⟩ := h.of_defaultIfEmpty
  rcases incrementFailedAuthStreak_trace htr with
    ⟨rfl, hm₁⟩ | ⟨r, rfl, hend⟩ | ⟨count, r, rfl, hend⟩
  · refine .idle fun ⟨n, hn⟩ => ?_
    rcases hvalue n hn with heq | ⟨heq, -⟩ <;> simp [hm₁] at heq
  · refine .counted r fun n hn => ?_
    rcases hvalue n hn with heq | ⟨heq, rfl⟩
    · rcases hend _ heq with ⟨-, hs⟩ | hs <;> simp at hs
    · rcases hend _ heq with ⟨hr, -⟩ | hs
      · exact ⟨hr, rfl⟩
      · simp at hs
  · refine .extended count r fun n hn => ?_
    rcases hvalue n hn with heq | ⟨heq, -⟩
    · rcases hend _ heq with hs | hs
      · exact Signal.value.inj hs
      · simp at hs
    · rcases hend _ heq with hs | hs <;> simp at hs

/-- The calls of the three counters, merged. -/
abbrev Counting (clientIp path : String) (claims : Option Claims) (counts : Events K)
    (a b c : Program K ℤ) : Prop :=
  Parts (RedisStateService.incrementWindowCounter clientIp path (seconds 10))
    (RedisStateService.incrementWindowCounter clientIp path (seconds 60))
    ((RedisStateService.incrementFailedAuthStreak (identityKey claims clientIp)).defaultIfEmpty 0)
    counts a b c

variable {platform : Platform K} {properties : SecurityProperties K}

/-- The record that publishes a signal. -/
def telemetry (clientIp method path : String) (signal : RequestSignalDTO K) (stamp : Stamp) :
    ProducerRecord K where
  topic := KafkaRequestPublisher.rawTopic
  key := clientIp
  value := { requestId := stamp.requestId, clientIp, method, endpoint := path,
             timestamp := stamp.timestamp, signal }

/-- The calls of a finished publication; the envelope is missing only where it could not be
stamped. -/
def Published (clientIp method path : String) (signal : RequestSignalDTO K)
    (pub : Events K) : Prop :=
  (∃ r, (∀ s, r ≠ .value s) ∧ pub = [.top .stamp r]) ∨
    ∃ s r, pub = [.top .stamp (.value s), .top (.send (telemetry clientIp method path signal s)) r]

/-- Publishing stamps an envelope and sends it. -/
theorem publishAsync_trace {clientIp method path : String} {signal : RequestSignalDTO K}
    {tr : Events K} {m' : Program K Unit}
    (h : Trace (KafkaRequestPublisher.publishAsync clientIp method path signal) tr m') :
    (¬ m'.Completes ∧ ∀ e ∈ tr, e.op = .stamp) ∨ Published clientIp method path signal tr := by
  have hsteps : ∀ {tr : Events K} {m₁ : Program K Unit},
      Trace ((Mono.await Op.stamp).flatMap fun s =>
        Mono.await (Op.send (telemetry clientIp method path signal s))) tr m₁ →
      (m₁.outcome = none ∧ ∀ e ∈ tr, e.op = .stamp) ∨ Published clientIp method path signal tr := by
    intro tr m₁ htr
    rcases htr.of_onSignal with ⟨m₂, htr, -, hm₁⟩ | ⟨tr₁, tr₂, s, rfl, htr₁, htr₂⟩
    · refine .inl ⟨hm₁, ?_⟩
      rcases htr.of_await with ⟨rfl, -⟩ | ⟨r, rfl, -⟩ <;> simp [Event.top]
    · obtain rfl := htr₁.ended_await
      cases s with
      | value stamp =>
        rcases htr₂.of_await with ⟨rfl, rfl⟩ | ⟨r, rfl, -⟩
        · exact .inl ⟨rfl, by simp [Event.top]⟩
        · exact .inr (.inr ⟨stamp, r, rfl⟩)
      | empty =>
        obtain ⟨rfl, -⟩ := htr₂.of_done
        exact .inr (.inl ⟨_, by simp, rfl⟩)
      | error =>
        obtain ⟨rfl, -⟩ := htr₂.of_done
        exact .inr (.inl ⟨_, by simp, rfl⟩)
  rcases h.of_onErrorResume with ⟨m₁, htr, hval⟩ | ⟨tr₁, tr₂, rfl, htr₁, htr₂⟩
  · rcases hsteps htr with ⟨hm₁, hstamp⟩ | hpub
    · refine .inl ⟨?_, hstamp⟩
      rintro ⟨a, ha⟩
      rw [hval a ha] at hm₁
      simp [Mono.outcome] at hm₁
    · exact .inr hpub
  · obtain ⟨rfl, -⟩ := htr₂.of_done
    rw [List.append_nil]
    rcases hsteps htr₁ with ⟨hne, -⟩ | hpub
    · simp [Mono.outcome] at hne
    · exact .inr hpub

/-- The calls that act on a score. -/
def enforcement (platform : Platform K) (properties : SecurityProperties K) (exchange : Exchange)
    (clientIp : String) (result : ScoreResponseDTO K) : List (Op K) :=
  if result.decision = some "BLOCK" then
    [.setStatusCode 403, .addHeader "Content-Type" (some "application/json")] ++
      match result.reason with
      | none => []
      | some reason =>
        [.redis (.set (RedisStateService.blocklistKey clientIp) reason
           (seconds properties.blocklistTtlSeconds)),
         .writeWith ("\x7b\"error\":\"" ++ ("Request blocked by threat engine: " ++ reason) ++ "\"\x7d")]
  else
    [.addHeader "X-Risk-Level" result.decision,
     .addHeader "X-Risk-Score" (some (platform.showDouble result.finalScore)), .chain exchange]

/-- Acting on a score performs its calls in order. -/
theorem enforce_trace {exchange : Exchange} {clientIp : String} {result : ScoreResponseDTO K}
    {tr : Events K} {m' : Program K Unit}
    (h : Trace (enforce platform properties exchange clientIp result) tr m') :
    Follows (enforcement platform properties exchange clientIp result) tr m' := by
  unfold enforce at h
  unfold enforcement
  split at h
  · rename_i hblock
    rw [if_pos hblock]
    refine Follows.cons h fun _ _ h => Follows.cons h fun _ rest h => ?_
    unfold RedisStateService.blockImmediately at h
    cases hreason : result.reason with
    | none =>
      rw [hreason] at h
      obtain ⟨rfl, rfl⟩ := h.of_done
      exact ⟨List.prefix_rfl, fun _ => rfl⟩
    | some reason =>
      rw [hreason] at h
      exact Follows.andThen h fun _ h => Follows.await h
  · rename_i hpass
    rw [if_neg hpass]
    rcases h.of_flatMap with ⟨m₁, htr, -, hm⟩ | ⟨tr₁, tr₂, a, rfl, htr₁, htr₂⟩
    · have hheaders := Follows.cons htr fun _ _ h => Follows.await h
      exact ⟨hheaders.1.trans ⟨[.chain exchange], rfl⟩, fun hc => absurd hc hm⟩
    · have hheaders := (Follows.cons htr₁ fun _ _ h => Follows.await h).2 ⟨a, rfl⟩
      have hchain := Follows.await htr₂
      unfold Follows
      rw [List.map_append, hheaders]
      exact ⟨(List.prefix_append_right_inj _).mpr hchain.1, fun hc => by rw [hchain.2 hc]; rfl⟩

section Filter

variable [Field K]

/-- The bytes that the body was read as. -/
def bytesRead : Signal (List Bytes) → Option Bytes
  | .value buffers => some buffers.flatten
  | .empty => some []
  | .error => none

/-- What replays the body of a request, and the text of it that is inspected. Where the method may
have a body, both come from the bytes that were read; where it may not, the body is handed on as it
came, and nothing of it is inspected. -/
inductive Replays (exchange : Exchange) (method : String) (pre : Events K) :
    List Bytes → String → Prop where
  | read {r : Signal (List Bytes)} {bytes : Bytes} (hmethod : mayHaveBody method = true)
      (hread : .top (.readBody exchange.body) r ∈ pre) (hbytes : bytesRead r = some bytes) :
      Replays exchange method pre [bytes] (decodeUtf8 bytes)
  | skipped (hmethod : mayHaveBody method = false) :
      Replays exchange method pre exchange.body ""

omit [Field K] in
/-- More calls replay the same body. -/
theorem Replays.mono {exchange : Exchange} {method bodyString : String} {pre pre' : Events K}
    {buffers : List Bytes} (h : Replays exchange method pre buffers bodyString)
    (hsub : ∀ e ∈ pre, e ∈ pre') : Replays exchange method pre' buffers bodyString := by
  cases h with
  | read hmethod hread hbytes => exact .read hmethod (hsub _ hread) hbytes
  | skipped hmethod => exact .skipped hmethod

omit [Field K] in
/-- Reading the body is one call, whose reply is what was read. -/
theorem readBody_trace {exchange : Exchange} {tr : Events K} {bytes : Bytes}
    (h : Trace ((joinBody exchange.body).defaultIfEmpty []) tr (.done (.value bytes))) :
    ∃ r, tr = [.top (.readBody exchange.body) r] ∧ bytesRead r = some bytes := by
  obtain ⟨tr₁, tr₂, s, rfl, hjoin, hdefault⟩ := h.ended_onSignal
  obtain ⟨tr₁, tr₃, r, rfl, hread, hbuffers⟩ := hjoin.ended_onSignal
  obtain rfl := hread.ended_await
  refine ⟨r, ?_⟩
  cases r with
  | value buffers =>
    change Trace (if buffers = [] then _ else _) tr₃ _ at hbuffers
    by_cases hnone : buffers = []
    · rw [if_pos hnone] at hbuffers
      obtain ⟨rfl, hs⟩ := hbuffers.of_done
      obtain rfl := Mono.done.inj hs
      obtain ⟨rfl, hbytes⟩ := hdefault.of_done
      cases hbytes
      exact ⟨rfl, by rw [hnone]; rfl⟩
    · rw [if_neg hnone] at hbuffers
      obtain ⟨rfl, hs⟩ := hbuffers.of_done
      obtain rfl := Mono.done.inj hs
      obtain ⟨rfl, hbytes⟩ := hdefault.of_done
      cases hbytes
      exact ⟨rfl, rfl⟩
  | empty =>
    obtain ⟨rfl, hs⟩ := hbuffers.of_done
    obtain rfl := Mono.done.inj hs
    obtain ⟨rfl, hbytes⟩ := hdefault.of_done
    cases hbytes
    exact ⟨rfl, rfl⟩
  | error =>
    obtain ⟨rfl, hs⟩ := hbuffers.of_done
    obtain rfl := Mono.done.inj hs
    obtain ⟨-, hbytes⟩ := hdefault.of_done
    cases hbytes

/-- Reading the body keeps the request, but for the buffers that replay the body. -/
theorem processBody_trace {exchange : Exchange} {clientIp method path : String}
    {claims : Option Claims} {tr : Events K} {m' : Program K Unit}
    (h : Trace (processBody platform properties exchange clientIp method path claims) tr m') :
    (¬ m'.Completes ∧ ReadsBody exchange tr) ∨
      ∃ body rest buffers bodyString, tr = body ++ rest ∧ ReadsBody exchange body ∧
        Replays exchange method body buffers bodyString ∧
        Trace (continuePipeline platform properties { exchange with body := buffers } clientIp
          method path claims bodyString) rest m' := by
  have hjoin : ∀ {tr : Events K} {m₁ : Program K Bytes}, Trace (joinBody exchange.body) tr m₁ →
      ReadsBody exchange tr := by
    intro tr m₁ htr
    rcases htr.of_await_flatMap with ⟨-, rfl | ⟨r, rfl, -⟩⟩ | ⟨buffers, rest, rfl, hrest⟩
    · exact .inl rfl
    · exact .inr ⟨r, rfl⟩
    · split at hrest <;> obtain ⟨rfl, -⟩ := hrest.of_done <;> exact .inr ⟨_, rfl⟩
  have hread : ∀ {tr : Events K} {m₁ : Program K Bytes},
      Trace ((joinBody exchange.body).defaultIfEmpty []) tr m₁ → ReadsBody exchange tr := by
    intro tr m₁ htr
    rcases htr.of_onSignal with ⟨m₂, htr, -⟩ | ⟨tr₁, tr₂, s, rfl, htr₁, htr₂⟩
    · exact hjoin htr
    · obtain rfl : tr₂ = [] := by cases s <;> exact htr₂.of_done.1
      rw [List.append_nil]
      exact hjoin htr₁
  unfold processBody at h
  split at h
  · rename_i hmethod
    rcases h.of_flatMap with ⟨m₁, htr, -, hm⟩ | ⟨tr₁, tr₂, bytes, rfl, htr₁, htr₂⟩
    · exact .inl ⟨hm, hread htr⟩
    · obtain ⟨r, rfl, hbytes⟩ := readBody_trace htr₁
      exact .inr ⟨_, tr₂, _, _, rfl, .inr ⟨r, rfl⟩,
        .read hmethod (List.mem_singleton_self _) hbytes, htr₂⟩
  · rename_i hmethod
    exact .inr ⟨[], tr, exchange.body, "", rfl, .inl rfl, .skipped (by simpa using hmethod), h⟩

omit [Field K] in
/-- A request that authentication lets pass is authenticated. -/
theorem authenticated_of_allowed {exchange : Exchange} {claims : Option Claims} {auth : Events K}
    (hauth : Trace (authenticate exchange) auth (.done (.value claims)))
    (hallowed : ¬ (exchange.path ∉ publicPaths ∧ claims.isNone = true)) :
    Authenticated exchange claims auth := by
  rcases authenticate_trace hauth with hyes | ⟨rfl, hno⟩
  · exact hyes
  · cases hno with
    | missing hpath => exact absurd ⟨hpath, rfl⟩ hallowed
    | rejected hpath => exact absurd ⟨hpath, rfl⟩ hallowed

omit [Field K] in
/-- A request that authentication does not let pass is not authenticated. -/
theorem unauthenticated_of_denied {exchange : Exchange} {claims : Option Claims} {auth : Events K}
    (hauth : Trace (authenticate exchange) auth (.done (.value claims)))
    (hdenied : exchange.path ∉ publicPaths ∧ claims.isNone = true) :
    Unauthenticated exchange auth := by
  rcases authenticate_trace hauth with hyes | ⟨-, hno⟩
  · cases hyes with
    | publicPath hpath => exact absurd hpath hdenied.1
    | token => simp at hdenied
  · exact hno

/-- An authenticated request is refused, or it is admitted and goes on to the counters. -/
theorem checkBlocklist_trace {exchange : Exchange} {clientIp : String} {claims : Option Claims}
    {auth rest : Events K} {m' : Program K Unit}
    (hresolved : resolveClientIp exchange = some clientIp)
    (hyes : Authenticated exchange claims auth)
    (h : Trace (checkBlocklist platform properties exchange clientIp exchange.method exchange.path
      claims) rest m') :
    Refused exchange m' (auth ++ rest) ∨
      ∃ clientIp claims pre counting buffers bodyString, auth ++ rest = pre ++ counting ∧
        Admitted exchange clientIp claims pre ∧
        Replays exchange exchange.method pre buffers bodyString ∧
        Trace (continuePipeline platform properties { exchange with body := buffers } clientIp
          exchange.method exchange.path claims bodyString) counting m' := by
  rcases h.of_await_flatMap with ⟨hm, hlookup⟩ | ⟨blocked, after, rfl, hafter⟩
  · refine .inl (.waiting hm fun e he => ?_)
    rcases List.mem_append.mp he with hmem | hmem
    · exact hyes.preliminary e hmem
    · rcases hlookup with rfl | ⟨r, rfl, hr⟩
      · simp at hmem
      · obtain rfl := List.mem_singleton.mp hmem
        exact hr true
  · cases blocked with
    | true => exact .inl (.blocked hresolved hyes (reject_trace hafter))
    | false =>
      rcases processBody_trace hafter with ⟨hm, hbody⟩ |
        ⟨body, counting, buffers, bodyString, rfl, hbody, hreplays, hcounting⟩
      · have hpre : Admitted exchange clientIp claims _ :=
          ⟨hresolved, auth, after, rfl, hyes, hbody⟩
        exact .inl (.waiting hm hpre.preliminary)
      · refine .inr ⟨clientIp, claims, auth ++ lookup clientIp (.value false) :: body, counting,
          buffers, bodyString, ?_, ⟨hresolved, auth, body, rfl, hyes, hbody⟩,
          hreplays.mono fun e he => by simp [he], hcounting⟩
        simp [lookup]

/-- A request is refused, or it is admitted and goes on to the counters. -/
theorem filter_trace {exchange : Exchange} {tr : Events K} {m' : Program K Unit}
    (h : Trace (filter platform properties exchange) tr m') :
    Refused exchange m' tr ∨
      ∃ clientIp claims pre rest buffers bodyString, tr = pre ++ rest ∧
        Admitted exchange clientIp claims pre ∧
        Replays exchange exchange.method pre buffers bodyString ∧
        Trace (continuePipeline platform properties { exchange with body := buffers } clientIp
          exchange.method exchange.path claims bodyString) rest m' := by
  unfold filter at h
  split at h
  · obtain ⟨rfl, rfl⟩ := h.of_done
    exact .inl (.waiting (by rintro ⟨a, ha⟩; simp [Mono.outcome] at ha) (by simp))
  · rename_i clientIp hresolved
    rcases h.of_flatMap with ⟨m₁, htr, -, hm⟩ | ⟨auth, rest, claims, rfl, hauth, hrest⟩
    · refine .inl (.waiting hm fun e he => ?_)
      obtain ⟨token, hop⟩ := (htr.emits (authenticate_emits exchange)).1 e he
      obtain ⟨path, op, reply⟩ := e
      subst hop
      trivial
    · split at hrest
      · rename_i hdenied
        exact .inl (.unauthenticated (unauthenticated_of_denied hauth hdenied)
          (reject_trace hrest))
      · rename_i hallowed
        exact checkBlocklist_trace hresolved (authenticated_of_allowed hauth hallowed) hrest

/-- The pipeline is advancing the counters, or it has its three counts and goes on with them. -/
theorem continuePipeline_trace {exchange : Exchange} {clientIp method path bodyString : String}
    {claims : Option Claims} {tr : Events K} {m' : Program K Unit}
    (h : Trace (continuePipeline platform properties exchange clientIp method path claims
      bodyString) tr m') :
    (¬ m'.Completes ∧ ∃ a b c, Counting clientIp path claims tr a b c) ∨
      ∃ counts rest rate10s rate60s failStreak, tr = counts ++ rest ∧
        Counting clientIp path claims counts (.done (.value rate10s)) (.done (.value rate60s))
          (.done (.value failStreak)) ∧
        Trace (assess platform properties exchange clientIp method path claims bodyString
          (rate10s, rate60s, failStreak)) rest m' := by
  rcases h.of_flatMap with ⟨m₁, htr, -, hm⟩ |
    ⟨counts, rest, ⟨rate10s, rate60s, failStreak⟩, rfl, hcounts, hrest⟩
  · rcases htr.of_zip with ⟨a, b, c, hparts, -⟩ | ⟨tr₁, tr₂, a, b, c, s, rfl, hparts, -, hdone⟩
    · exact .inl ⟨hm, a, b, c, hparts⟩
    · obtain ⟨rfl, -⟩ := hdone.of_done
      exact .inl ⟨hm, a, b, c, by simpa only [List.append_nil] using hparts⟩
  · rcases hcounts.of_zip with ⟨a, b, c, -, hne⟩ | ⟨tr₁, tr₂, a, b, c, s, rfl, hparts, hs, hdone⟩
    · simp at hne
    · obtain ⟨rfl, hval⟩ := hdone.of_done
      obtain rfl := Mono.done.inj hval
      obtain ⟨ha, hb, hc⟩ := Mono.eq_value_of_combine hs
      obtain rfl := Mono.eq_done_of_outcome ha
      obtain rfl := Mono.eq_done_of_outcome hb
      obtain rfl := Mono.eq_done_of_outcome hc
      exact .inr ⟨tr₁, rest, rate10s, rate60s, failStreak, by simp, hparts, hrest⟩

/-- The score that the filter acts on. -/
def scored : Signal (ScoreResponseDTO K) → Option (ScoreResponseDTO K)
  | .value result => some result
  | .empty => none
  | .error => some ThreatEngineClient.unscored

/-- Scoring asks the engine once and ends with the score that the filter acts on. -/
theorem score_trace {signal : RequestSignalDTO K} {tr : Events K}
    {m' : Program K (ScoreResponseDTO K)} (h : Trace (ThreatEngineClient.score signal) tr m') :
    (tr = [] ∧ ¬ m'.Completes) ∨ ∃ r, tr = [.top (.postScore signal) r] ∧
      ((scored r = none ∧ ¬ m'.Completes) ∨
        ∃ result, scored r = some result ∧ m' = .done (.value result)) := by
  rcases h.of_onSignal with ⟨m₁, htr, hm₁, hm⟩ | ⟨tr₁, tr₂, s, rfl, htr₁, htr₂⟩
  · rcases htr.of_await with ⟨rfl, -⟩ | ⟨r, rfl, rfl⟩
    · exact .inl ⟨rfl, not_completes_of_outcome hm⟩
    · simp [Mono.outcome] at hm₁
  · obtain rfl := htr₁.ended_await
    cases s with
    | value a =>
      obtain ⟨rfl, rfl⟩ := htr₂.of_done
      exact .inr ⟨.value a, rfl, .inr ⟨a, rfl, rfl⟩⟩
    | empty =>
      obtain ⟨rfl, rfl⟩ := htr₂.of_done
      exact .inr ⟨.empty, rfl, .inl ⟨rfl, not_completes_done (by simp)⟩⟩
    | error =>
      obtain ⟨rfl, rfl⟩ := htr₂.of_done
      exact .inr ⟨.error, rfl, .inr ⟨_, rfl, rfl⟩⟩

/-- The calls after the publication: none yet, the hand-over of a request that is not high-risk,
or the score of one that is and what acts on it. -/
inductive Routed (platform : Platform K) (properties : SecurityProperties K) (exchange : Exchange)
    (clientIp path : String) (rate10s : ℤ) (signal : RequestSignalDTO K) (m' : Program K Unit) :
    Events K → Prop where
  | waiting (hm : ¬ m'.Completes) :
      Routed platform properties exchange clientIp path rate10s signal m' []
  | direct {tr : Events K} (hrisk : isHighRisk properties path rate10s = false)
      (hchain : Follows [.chain exchange] tr m') :
      Routed platform properties exchange clientIp path rate10s signal m' tr
  | undecided {reply : Signal (ScoreResponseDTO K)}
      (hrisk : isHighRisk properties path rate10s = true) (hm : ¬ m'.Completes)
      (hreply : scored reply = none) :
      Routed platform properties exchange clientIp path rate10s signal m'
        [.top (.postScore signal) reply]
  | enforced {reply : Signal (ScoreResponseDTO K)} {result : ScoreResponseDTO K} {tr : Events K}
      (hrisk : isHighRisk properties path rate10s = true) (hreply : scored reply = some result)
      (henforce : Follows (enforcement platform properties exchange clientIp result) tr m') :
      Routed platform properties exchange clientIp path rate10s signal m'
        (.top (.postScore signal) reply :: tr)

/-- A request that is not high-risk is handed on; any other is scored first. -/
theorem route_trace {exchange : Exchange} {clientIp path : String} {rate10s : ℤ}
    {signal : RequestSignalDTO K} {tr : Events K} {m' : Program K Unit}
    (h : Trace (route platform properties exchange clientIp path rate10s signal) tr m') :
    Routed platform properties exchange clientIp path rate10s signal m' tr := by
  unfold route at h
  split at h
  · rename_i hrisk
    rcases h.of_flatMap with ⟨m₁, htr, hm₁, hm⟩ | ⟨tr₁, tr₂, result, rfl, htr₁, htr₂⟩
    · rcases score_trace htr with ⟨rfl, -⟩ | ⟨r, rfl, ⟨hr, -⟩ | ⟨result, -, rfl⟩⟩
      · exact .waiting hm
      · exact .undecided hrisk hm hr
      · exact absurd ⟨result, rfl⟩ hm₁
    · rcases score_trace htr₁ with ⟨-, hne⟩ | ⟨r, rfl, ⟨-, hne⟩ | ⟨result', hr, heq⟩⟩
      · exact absurd ⟨result, rfl⟩ hne
      · exact absurd ⟨result, rfl⟩ hne
      · obtain rfl : result = result' := by simpa using heq
        exact .enforced hrisk hr (enforce_trace htr₂)
  · rename_i hrisk
    exact .direct (by simpa using hrisk) (Follows.await h)

/-- With its three counts, a request publishes its signal and is then handed on or scored. -/
theorem assess_trace {exchange : Exchange} {clientIp method path bodyString : String}
    {claims : Option Claims} {rate10s rate60s failStreak : ℤ} {tr : Events K}
    {m' : Program K Unit}
    (h : Trace (assess platform properties exchange clientIp method path claims bodyString
      (rate10s, rate60s, failStreak)) tr m') :
    (¬ m'.Completes ∧ ∀ e ∈ tr, e.op = .readClocks ∨ e.op = .stamp) ∨
      ∃ clocks pub rest, tr = .top .readClocks (.value clocks) :: (pub ++ rest) ∧
        Published clientIp method path (buildSignal platform properties rate10s rate60s failStreak
          clocks exchange claims path bodyString) pub ∧
        Routed platform properties exchange clientIp path rate10s
          (buildSignal platform properties rate10s rate60s failStreak clocks exchange claims path
            bodyString) m' rest := by
  rcases h.of_await_flatMap with ⟨hm, rfl | ⟨r, rfl, -⟩⟩ | ⟨clocks, after, rfl, hafter⟩
  · exact .inl ⟨hm, by simp⟩
  · exact .inl ⟨hm, by simp [Event.top]⟩
  · rcases hafter.of_flatMap with ⟨m₁, htr, -, hm⟩ | ⟨pub, rest, _, rfl, hpub, hrest⟩
    · rcases publishAsync_trace htr with ⟨-, hstamp⟩ | hpub
      · refine .inl ⟨hm, fun e he => ?_⟩
        rcases List.mem_cons.mp he with rfl | hmem
        · exact .inl rfl
        · exact .inr (hstamp e hmem)
      · exact .inr ⟨clocks, after, [], by simp, hpub, .waiting hm⟩
    · rcases publishAsync_trace hpub with ⟨hne, -⟩ | hpub
      · exact absurd ⟨_, rfl⟩ hne
      · exact .inr ⟨clocks, pub, rest, rfl, hpub, route_trace hrest⟩

/-- How far a request has come. -/
inductive Progress (platform : Platform K) (properties : SecurityProperties K)
    (exchange : Exchange) (m' : Program K Unit) : Events K → Prop where
  | refused {tr : Events K} (h : Refused exchange m' tr) :
      Progress platform properties exchange m' tr
  | counting {clientIp : String} {claims : Option Claims} {pre counts : Events K}
      {a b c : Program K ℤ} (hm : ¬ m'.Completes) (hpre : Admitted exchange clientIp claims pre)
      (hcounts : Counting clientIp exchange.path claims counts a b c) :
      Progress platform properties exchange m' (pre ++ counts)
  | counted {clientIp : String} {claims : Option Claims} {pre counts rest : Events K}
      {rate10s rate60s failStreak : ℤ} (hm : ¬ m'.Completes)
      (hpre : Admitted exchange clientIp claims pre)
      (hcounts : Counting clientIp exchange.path claims counts (.done (.value rate10s))
        (.done (.value rate60s)) (.done (.value failStreak)))
      (hrest : ∀ e ∈ rest, e.op = .readClocks ∨ e.op = .stamp) :
      Progress platform properties exchange m' (pre ++ (counts ++ rest))
  | published {clientIp bodyString : String} {claims : Option Claims} {buffers : List Bytes}
      {pre counts pub rest : Events K} {rate10s rate60s failStreak : ℤ} {clocks : Clocks}
      {signal : RequestSignalDTO K} (hpre : Admitted exchange clientIp claims pre)
      (hcounts : Counting clientIp exchange.path claims counts (.done (.value rate10s))
        (.done (.value rate60s)) (.done (.value failStreak)))
      (hsignal : signal = buildSignal platform properties rate10s rate60s failStreak clocks
        { exchange with body := buffers } claims exchange.path bodyString)
      (hpub : Published clientIp exchange.method exchange.path signal pub)
      (hroute : Routed platform properties { exchange with body := buffers } clientIp exchange.path
        rate10s signal m' rest) :
      Progress platform properties exchange m'
        (pre ++ (counts ++ .top .readClocks (.value clocks) :: (pub ++ rest)))

/-- Every trace of the filter is in one of its phases. -/
theorem progress_of_trace {exchange : Exchange} {tr : Events K} {m' : Program K Unit}
    (h : Trace (filter platform properties exchange) tr m') :
    Progress platform properties exchange m' tr := by
  rcases filter_trace h with href |
    ⟨clientIp, claims, pre, after, buffers, bodyString, rfl, hpre, -, hafter⟩
  · exact .refused href
  · rcases continuePipeline_trace hafter with ⟨hm, a, b, c, hcounts⟩ |
      ⟨counts, after, rate10s, rate60s, failStreak, rfl, hcounts, hafter⟩
    · exact .counting hm hpre hcounts
    · rcases assess_trace hafter with ⟨hm, hops⟩ | ⟨clocks, pub, rest, rfl, hpub, hroute⟩
      · exact .counted hm hpre hcounts hops
      · exact .published hpre hcounts rfl hpub hroute

end Filter

end ZeroTrustFilter

end ApiFirewall.Gateway
