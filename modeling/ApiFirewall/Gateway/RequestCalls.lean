import ApiFirewall.Gateway.RequestTrace

/-!
# The calls a request can perform

Every call of the filter, with the data it carries, and two coarser classes of calls: those before
the publication, which only collect information, and those after it.
-/

namespace ApiFirewall.Gateway.ZeroTrustFilter

open ApiFirewall.KeyValue ApiFirewall.Reactive

variable {K : Type}

/-- The calls of a request, with the data they carry. -/
inductive RequestCall (properties : SecurityProperties K) (exchange : Exchange) : Op K → Prop where
  | parse (hpath : exchange.path ∉ publicPaths) (token : String) :
      RequestCall properties exchange (.parseSignedClaims token)
  | lookup {clientIp : String} (h : resolveClientIp exchange = some clientIp) :
      RequestCall properties exchange (.redis (.hasKey (RedisStateService.blocklistKey clientIp)))
  | readBody (body : List Bytes) : RequestCall properties exchange (.readBody body)
  | count {clientIp : String} (h : resolveClientIp exchange = some clientIp) :
      RequestCall properties exchange
        (.redis (.increment (RedisStateService.countKey clientIp exchange.path)))
  | window {clientIp : String} (h : resolveClientIp exchange = some clientIp) (window : ℕ) :
      RequestCall properties exchange
        (.redis (.expire (RedisStateService.countKey clientIp exchange.path) window))
  | streak {clientIp : String} {claims : Option Claims}
      (h : resolveClientIp exchange = some clientIp)
      (hclaims : exchange.path ∈ publicPaths → claims = none) : RequestCall properties exchange
        (.redis (.increment (RedisStateService.failstreakKey (identityKey claims clientIp))))
  | extend {clientIp : String} {claims : Option Claims}
      (h : resolveClientIp exchange = some clientIp)
      (hclaims : exchange.path ∈ publicPaths → claims = none) : RequestCall properties exchange
        (.redis (.expire (RedisStateService.failstreakKey (identityKey claims clientIp))
          (minutes 15)))
  | readClocks : RequestCall properties exchange .readClocks
  | stamp : RequestCall properties exchange .stamp
  | send {clientIp : String} (h : resolveClientIp exchange = some clientIp)
      (signal : RequestSignalDTO K) (s : Stamp) : RequestCall properties exchange
        (.send (telemetry clientIp exchange.method exchange.path signal s))
  | postScore (signal : RequestSignalDTO K) : RequestCall properties exchange (.postScore signal)
  | chain (exchange' : Exchange) : RequestCall properties exchange (.chain exchange')
  | setStatusCode (status : ℕ) (h : status = 401 → exchange.path ∉ publicPaths) :
      RequestCall properties exchange (.setStatusCode status)
  | addHeader (name : String) (value : Option String) :
      RequestCall properties exchange (.addHeader name value)
  | writeWith (body : String) : RequestCall properties exchange (.writeWith body)
  | block {clientIp : String} (h : resolveClientIp exchange = some clientIp) (reason : String) :
      RequestCall properties exchange (.redis (.set (RedisStateService.blocklistKey clientIp) reason
        (seconds properties.blocklistTtlSeconds)))

/-- A single call is a call. -/
private theorem emits_await {P : Op K → Prop} {op : Op K} (h : P op) :
    (Mono.await op : Program K (Res op)).Emits P := ⟨h, fun _ => trivial⟩

section Filter

variable [Field K] {platform : Platform K} {properties : SecurityProperties K}

/-- The counters, the publication and the decision perform calls of the request. -/
theorem continuePipeline_emits {exchange : Exchange} {clientIp : String}
    (h : resolveClientIp exchange = some clientIp) (buffers : List Bytes)
    {claims : Option Claims} (hclaims : exchange.path ∈ publicPaths → claims = none)
    (bodyString : String) :
    (continuePipeline platform properties { exchange with body := buffers } clientIp
      exchange.method exchange.path claims bodyString).Emits (RequestCall properties exchange) := by
  have hwindow : ∀ window, (RedisStateService.incrementWindowCounter clientIp exchange.path window :
      Program K ℤ).Emits (RequestCall properties exchange) := by
    intro window
    refine Mono.emits_flatMap (emits_await (.count h)) fun count => ?_
    split
    · exact Mono.emits_onSignal (emits_await (.window h window)) fun s => by cases s <;> trivial
    · trivial
  have hstreak : ((RedisStateService.incrementFailedAuthStreak
      (identityKey claims clientIp)).defaultIfEmpty 0 : Program K ℤ).Emits
        (RequestCall properties exchange) := by
    refine Mono.emits_onSignal ?_ fun s => by cases s <;> trivial
    refine Mono.emits_flatMap (emits_await (.streak h hclaims)) fun count => ?_
    exact Mono.emits_onSignal (emits_await (.extend h hclaims)) fun s => by cases s <;> trivial
  have henforce : ∀ buffers result, (enforce platform properties
      { exchange with body := buffers } clientIp result).Emits (RequestCall properties exchange) := by
    intro buffers result
    unfold enforce
    split
    · refine Mono.emits_flatMap (emits_await (.setStatusCode 403 (by simp))) fun _ =>
        Mono.emits_flatMap (emits_await (.addHeader _ _)) fun _ => Mono.emits_onSignal ?_ fun s => ?_
      · unfold RedisStateService.blockImmediately
        cases result.reason with
        | none => trivial
        | some reason => exact emits_await (.block h reason)
      · cases s <;> first | trivial | exact emits_await (.writeWith _)
    · refine Mono.emits_flatMap ?_ fun _ => emits_await (.chain _)
      exact Mono.emits_flatMap (emits_await (.addHeader _ _)) fun _ => emits_await (.addHeader _ _)
  refine Mono.emits_flatMap ⟨hwindow _, hwindow _, hstreak, fun _ => trivial⟩ fun counts => ?_
  refine Mono.emits_flatMap (emits_await .readClocks) fun clocks => ?_
  refine Mono.emits_flatMap ?_ fun _ => ?_
  · refine Mono.emits_onSignal ?_ fun s => by cases s <;> trivial
    exact Mono.emits_flatMap (emits_await .stamp) fun s => emits_await (.send h _ s)
  · unfold route
    split
    · refine Mono.emits_flatMap ?_ (henforce buffers)
      exact Mono.emits_onSignal (emits_await (.postScore _)) fun s => by cases s <;> trivial
    · exact emits_await (.chain _)

/-- The filter performs calls of the request. -/
theorem filter_emits (platform : Platform K) (properties : SecurityProperties K)
    (exchange : Exchange) :
    (filter platform properties exchange).Emits (RequestCall properties exchange) := by
  have hreject : ∀ status reason, (status = 401 → exchange.path ∉ publicPaths) →
      (reject status reason : Program K Unit).Emits (RequestCall properties exchange) :=
    fun status reason hstatus => Mono.emits_flatMap (emits_await (.setStatusCode status hstatus))
      fun _ => Mono.emits_flatMap (emits_await (.addHeader _ _)) fun _ => emits_await (.writeWith _)
  have hcheck : ∀ clientIp claims, resolveClientIp exchange = some clientIp →
      (exchange.path ∈ publicPaths → claims = none) →
      (checkBlocklist platform properties exchange clientIp exchange.method exchange.path
        claims).Emits (RequestCall properties exchange) := by
    intro clientIp claims hresolved hclaims
    refine Mono.emits_flatMap (emits_await (.lookup hresolved)) fun blocked => ?_
    split
    · exact hreject _ _ (by simp)
    · unfold processBody
      split
      · refine Mono.emits_flatMap (Mono.emits_onSignal ?_ fun s => by cases s <;> trivial)
          fun bytes => continuePipeline_emits hresolved [bytes] hclaims _
        refine Mono.emits_flatMap (emits_await (.readBody _)) fun buffers => ?_
        split <;> trivial
      · exact continuePipeline_emits hresolved exchange.body hclaims ""
  unfold filter
  split
  · trivial
  · rename_i clientIp hresolved
    by_cases hpath : exchange.path ∈ publicPaths
    · simp only [authenticate, hpath, not_true_eq_false, false_and, if_false]
      exact hcheck clientIp none hresolved fun _ => rfl
    · refine Mono.emits_flatMap ?_ fun claims => ?_
      · exact (authenticate_emits exchange).mono fun op ⟨token, hop⟩ => hop ▸ .parse hpath token
      · split
        · exact hreject _ _ fun _ => hpath
        · exact hcheck clientIp claims hresolved fun h => absurd h hpath

end Filter

/-- A call before the publication: it neither publishes nor scores nor blocks, and it neither
answers the request nor hands it on. -/
def Collecting : Op K → Prop
  | .parseSignedClaims _ => True
  | .redis (.hasKey _) => True
  | .redis (.increment _) => True
  | .redis (.expire _ _) => True
  | .readBody _ => True
  | .readClocks => True
  | .stamp => True
  | _ => False

/-- Preliminary calls only collect. -/
theorem Preliminary.collecting {e : Event (Op K) Res} (h : Preliminary e) : Collecting e.op := by
  obtain ⟨path, op, reply⟩ := e
  cases op with
  | redis c => cases c <;> trivial
  | _ => trivial

/-- A call of a counter. -/
def CounterCall : Op K → Prop
  | .redis (.increment _) => True
  | .redis (.expire _ _) => True
  | _ => False

/-- The counters only count. -/
theorem counterCall_of_counting {clientIp path : String} {claims : Option Claims}
    {counts : Events K} {a b c : Program K ℤ} (h : Counting clientIp path claims counts a b c) :
    ∀ e ∈ counts, CounterCall e.op := by
  have hwindow : ∀ window, (RedisStateService.incrementWindowCounter clientIp path window :
      Program K ℤ).Emits CounterCall := by
    intro window
    refine Mono.emits_flatMap ⟨trivial, fun _ => trivial⟩ fun count => ?_
    split
    · exact Mono.emits_onSignal ⟨trivial, fun _ => trivial⟩ fun s => by cases s <;> trivial
    · trivial
  refine h.emits (hwindow _) (hwindow _) (Mono.emits_onSignal ?_ fun s => by cases s <;> trivial)
  refine Mono.emits_flatMap ⟨trivial, fun _ => trivial⟩ fun count => ?_
  exact Mono.emits_onSignal ⟨trivial, fun _ => trivial⟩ fun s => by cases s <;> trivial

/-- Counting is collecting. -/
theorem CounterCall.collecting {op : Op K} (h : CounterCall op) : Collecting op := by
  cases op with
  | redis c => cases c <;> trivial
  | _ => exact h.elim

/-- The counters only collect. -/
theorem collecting_of_counting {clientIp path : String} {claims : Option Claims}
    {counts : Events K} {a b c : Program K ℤ} (h : Counting clientIp path claims counts a b c) :
    ∀ e ∈ counts, Collecting e.op := fun e he => (counterCall_of_counting h e he).collecting

/-- A call of a request that has started to count is preliminary, or counts, or comes later. -/
theorem phase_of_mem {exchange : Exchange} {clientIp path : String} {claims claims' : Option Claims}
    {pre counts rest : Events K} {a b c : Program K ℤ}
    (hpre : Admitted exchange clientIp claims pre)
    (hcounts : Counting clientIp path claims' counts a b c)
    {e : Event (Op K) Res} (he : e ∈ pre ++ (counts ++ rest)) :
    Preliminary e ∨ CounterCall e.op ∨ e ∈ rest := by
  rcases List.mem_append.mp he with hmem | hmem
  · exact .inl (hpre.preliminary e hmem)
  · exact .inr ((List.mem_append.mp hmem).imp_left (counterCall_of_counting hcounts e))

/-- A window counter that has ended with a count was answered that count. -/
theorem WindowCalls.count_mem {key : String} {window : ℕ} {count : ℤ} {tr : Events K}
    (h : WindowCalls key window (.done (.value count)) tr) :
    .top (.redis (.increment key)) (.value count) ∈ tr := by
  cases h with
  | idle hm => exact absurd ⟨count, rfl⟩ hm
  | counted r hr =>
    obtain rfl := hr count rfl
    exact List.mem_cons_self ..
  | started r hr =>
    obtain rfl := hr count rfl
    exact List.mem_cons_self ..

/-- A streak counter that has ended with a count was answered that count, or not at all. -/
theorem StreakCalls.count_mem {key : String} {count : ℤ} {tr : Events K}
    (h : StreakCalls key (.done (.value count)) tr) :
    .top (.redis (.increment key)) (.value count) ∈ tr ∨
      (.top (.redis (.increment key)) .empty ∈ tr ∧ count = 0) := by
  cases h with
  | idle hm => exact absurd ⟨count, rfl⟩ hm
  | counted r hr =>
    obtain ⟨rfl, rfl⟩ := hr count rfl
    exact .inr ⟨List.mem_cons_self .., rfl⟩
  | extended count' r hr =>
    obtain rfl := hr count rfl
    exact .inl (List.mem_cons_self ..)

/-- The counts of a request are answers to its counters. -/
structure Counted (path clientIp : String) (claims : Option Claims)
    (rate10s rate60s failStreak : ℤ) (events : Events K) : Prop where
  first : ⟨[.first], .redis (.increment (RedisStateService.countKey clientIp path)),
    .value rate10s⟩ ∈ events
  second : ⟨[.second], .redis (.increment (RedisStateService.countKey clientIp path)),
    .value rate60s⟩ ∈ events
  third : ⟨[.third], .redis (.increment (RedisStateService.failstreakKey
      (identityKey claims clientIp))), .value failStreak⟩ ∈ events ∨
    (⟨[.third], .redis (.increment (RedisStateService.failstreakKey
      (identityKey claims clientIp))), .empty⟩ ∈ events ∧ failStreak = 0)

/-- Counters that have ended with their counts were answered them. -/
theorem counted_of_counting {clientIp path : String} {claims : Option Claims} {counts : Events K}
    {rate10s rate60s failStreak : ℤ} (h : Counting clientIp path claims counts
      (.done (.value rate10s)) (.done (.value rate60s)) (.done (.value failStreak))) :
    Counted path clientIp claims rate10s rate60s failStreak counts where
  first := mem_under.mp (incrementWindowCounter_trace h.first).count_mem
  second := mem_under.mp (incrementWindowCounter_trace h.second).count_mem
  third := (streakCalls_of_trace h.third).count_mem.imp mem_under.mp
    (And.imp_left mem_under.mp)

/-- More calls record the same counts. -/
theorem Counted.mono {path clientIp : String} {claims : Option Claims}
    {rate10s rate60s failStreak : ℤ} {events events' : Events K}
    (h : Counted path clientIp claims rate10s rate60s failStreak events)
    (hsub : ∀ e ∈ events, e ∈ events') :
    Counted path clientIp claims rate10s rate60s failStreak events' where
  first := hsub _ h.first
  second := hsub _ h.second
  third := h.third.imp (hsub _) (And.imp_left (hsub _))

/-- A call after the publication. -/
def Acting : Op K → Prop
  | .postScore _ => True
  | .chain _ => True
  | .setStatusCode _ => True
  | .addHeader _ _ => True
  | .writeWith _ => True
  | .redis (.set _ _ _) => True
  | _ => False

/-- Calls that follow a fixed sequence are calls of it. -/
theorem forall_of_isPrefix (p : Op K → Prop) {ops : List (Op K)} {tr : Events K}
    (htr : tr.map Event.op <+: ops) (hops : ∀ op ∈ ops, p op) : ∀ e ∈ tr, p e.op :=
  fun _ he => hops _ (htr.subset (List.mem_map_of_mem he))

/-- Acting on a score answers the request, hands it on, or blocks its client. -/
theorem acting_of_enforcement {platform : Platform K} {properties : SecurityProperties K}
    {exchange : Exchange} {clientIp : String} {result : ScoreResponseDTO K} :
    ∀ op ∈ enforcement platform properties exchange clientIp result, Acting op := by
  unfold enforcement
  split
  · cases result.reason <;> simp [Acting]
  · simp [Acting]

/-- Routing a request scores it, answers it, hands it on, or blocks its client. -/
theorem acting_of_routed [Field K] {platform : Platform K} {properties : SecurityProperties K}
    {exchange : Exchange} {clientIp path : String} {rate10s : ℤ} {signal : RequestSignalDTO K}
    {tr : Events K} {m' : Program K Unit}
    (h : Routed platform properties exchange clientIp path rate10s signal m' tr) :
    ∀ e ∈ tr, Acting e.op := by
  cases h with
  | waiting => simp
  | direct _ hchain => exact forall_of_isPrefix Acting hchain.1 (by simp [Acting])
  | undecided => simp [Event.top, Acting]
  | enforced _ _ henforce =>
    exact List.forall_mem_cons.mpr
      ⟨trivial, forall_of_isPrefix Acting henforce.1 acting_of_enforcement⟩

/-- A call that turns a request away. -/
def Rejecting : Op K → Prop
  | .setStatusCode _ => True
  | .addHeader _ _ => True
  | .writeWith _ => True
  | _ => False

/-- A rejection only turns the request away. -/
theorem rejecting_of_rejection {status : ℕ} {reason : String} {rej : Events K}
    {m' : Program K Unit} (h : Follows (rejection status reason) rej m') :
    ∀ e ∈ rej, Rejecting e.op :=
  forall_of_isPrefix Rejecting h.1 (by simp [rejection, Rejecting])

/-- A refused request has only collected information and turned the request away. -/
theorem collecting_or_rejecting_of_refused {exchange : Exchange} {m' : Program K Unit}
    {tr : Events K} (h : Refused exchange m' tr) :
    ∀ e ∈ tr, Collecting e.op ∨ Rejecting e.op := by
  intro e he
  cases h with
  | waiting hm hpre => exact .inl (hpre e he).collecting
  | unauthenticated hauth hrej =>
    rcases List.mem_append.mp he with hmem | hmem
    · cases hauth with
      | missing => simp at hmem
      | rejected =>
        obtain rfl := List.mem_singleton.mp hmem
        exact .inl trivial
    · exact .inr (rejecting_of_rejection hrej e hmem)
  | blocked hresolved hauth hrej =>
    rcases List.mem_append.mp he with hmem | hmem
    · exact .inl (hauth.preliminary e hmem).collecting
    · rcases List.mem_cons.mp hmem with rfl | hmem
      · exact .inl trivial
      · exact .inr (rejecting_of_rejection hrej e hmem)

/-- A request that has made another call has its counts and has published its signal, and whatever
does not collect is part of the publication or comes after it. -/
theorem published_of_call [Field K] {platform : Platform K} {properties : SecurityProperties K}
    {exchange : Exchange} {m' : Program K Unit} {tr : Events K}
    (h : Progress platform properties exchange m' tr) {e : Event (Op K) Res} (he : e ∈ tr)
    (hcollecting : ¬ Collecting e.op) (hrejecting : ¬ Rejecting e.op) :
    ∃ clientIp claims auth rate10s rate60s failStreak clocks buffers bodyString signal pub rest,
      resolveClientIp exchange = some clientIp ∧ Authenticated exchange claims auth ∧
      (∀ a ∈ auth, a ∈ tr) ∧ Counted exchange.path clientIp claims rate10s rate60s failStreak tr ∧
      .top .readClocks (.value clocks) ∈ tr ∧
      signal = buildSignal platform properties rate10s rate60s failStreak clocks
        { exchange with body := buffers } claims exchange.path bodyString ∧
      Published clientIp exchange.method exchange.path signal pub ∧
      Routed platform properties { exchange with body := buffers } clientIp exchange.path rate10s
        signal m' rest ∧
      (∀ a ∈ tr, ¬ Collecting a.op → a ∈ pub ∨ a ∈ rest) ∧ ∀ a ∈ rest, a ∈ tr := by
  cases h with
  | refused href =>
    exact ((collecting_or_rejecting_of_refused href e he).elim hcollecting hrejecting).elim
  | counting hm hpre hcounts =>
    rcases List.mem_append.mp he with hmem | hmem
    · exact absurd (hpre.preliminary e hmem).collecting hcollecting
    · exact absurd (collecting_of_counting hcounts e hmem) hcollecting
  | counted hm hpre hcounts hrest =>
    rcases phase_of_mem hpre hcounts he with hpreliminary | hcounter | hmem
    · exact absurd hpreliminary.collecting hcollecting
    · exact absurd hcounter.collecting hcollecting
    · rcases hrest e hmem with hop | hop <;> simp [hop, Collecting] at hcollecting
  | @published clientIp bodyString claims buffers pre counts pub rest rate10s rate60s failStreak
      clocks signal hpre hcounts hsignal hpub hroute =>
    have hlater : ∀ a ∈ pre ++ (counts ++ .top .readClocks (.value clocks) :: (pub ++ rest)),
        ¬ Collecting a.op → a ∈ pub ∨ a ∈ rest := by
      intro a ha hloud
      rcases phase_of_mem hpre hcounts ha with hpreliminary | hcounter | hmem
      · exact absurd hpreliminary.collecting hloud
      · exact absurd hcounter.collecting hloud
      · rcases List.mem_cons.mp hmem with rfl | hmem
        · exact absurd trivial hloud
        · exact List.mem_append.mp hmem
    obtain ⟨hresolved, auth, body, rfl, hauth, -⟩ := hpre
    exact ⟨clientIp, claims, auth, rate10s, rate60s, failStreak, clocks, buffers, bodyString,
      signal, pub, rest, hresolved, hauth, fun a ha => by simp [ha],
      (counted_of_counting hcounts).mono fun a ha => by simp [ha], by simp, hsignal, hpub, hroute,
      hlater, fun a ha => by simp [ha]⟩

/-- A call that asks the engine for a score or acts on one that blocks. -/
def Scoring : Op K → Prop
  | .postScore _ => True
  | .redis (.set _ _ _) => True
  | _ => False

/-- Scoring neither collects nor turns a request away. -/
theorem Scoring.not_collecting_and_not_rejecting {op : Op K} (h : Scoring op) :
    ¬ Collecting op ∧ ¬ Rejecting op := by
  cases op with
  | redis c => cases c <;> first | exact h.elim | exact ⟨id, id⟩
  | _ => first | exact h.elim | exact ⟨id, id⟩

/-- A request that asks for a score, or blocks its client, has been routed. -/
theorem routed_of_scoring [Field K] {platform : Platform K} {properties : SecurityProperties K}
    {exchange : Exchange} {m' : Program K Unit} {tr : Events K}
    (h : Progress platform properties exchange m' tr) {e : Event (Op K) Res} (he : e ∈ tr)
    (hop : Scoring e.op) : ∃ clientIp claims buffers rate10s rate60s failStreak signal rest,
      resolveClientIp exchange = some clientIp ∧
      Counted exchange.path clientIp claims rate10s rate60s failStreak tr ∧
      Routed platform properties { exchange with body := buffers } clientIp exchange.path rate10s
        signal m' rest ∧ e ∈ rest ∧ ∀ a ∈ rest, a ∈ tr := by
  have hquiet := hop.not_collecting_and_not_rejecting
  obtain ⟨clientIp, claims, auth, rate10s, rate60s, failStreak, clocks, buffers, bodyString,
    signal, pub, rest, hresolved, -, -, hcounted, -, -, hpub, hroute, hlater, hsub⟩ :=
    published_of_call h he hquiet.1 hquiet.2
  rcases hlater e he hquiet.1 with hmem | hmem
  · rcases hpub with ⟨r, -, rfl⟩ | ⟨s, r, rfl⟩ <;> simp [Event.top] at hmem <;>
      rcases hmem with rfl | rfl <;> exact hop.elim
  · exact ⟨clientIp, claims, buffers, rate10s, rate60s, failStreak, signal, rest, hresolved,
      hcounted, hroute, hmem, hsub⟩

/-- The signal that a call publishes or has scored. -/
def carriedSignal : Op K → Option (RequestSignalDTO K)
  | .send record => some record.value.signal
  | .postScore signal => some signal
  | _ => none

/-- A call that carries a signal neither collects nor turns a request away. -/
theorem not_collecting_and_not_rejecting_of_carried {op : Op K} {signal : RequestSignalDTO K}
    (h : carriedSignal op = some signal) : ¬ Collecting op ∧ ¬ Rejecting op := by
  cases op <;> first | exact ⟨id, id⟩ | simp [carriedSignal] at h

/-- A finished publication carries its own signal. -/
theorem carried_of_published {clientIp method path : String} {signal signal' : RequestSignalDTO K}
    {pub : Events K} (h : Published clientIp method path signal pub) {e : Event (Op K) Res}
    (he : e ∈ pub) (hsignal : carriedSignal e.op = some signal') : signal' = signal := by
  rcases h with ⟨r, -, rfl⟩ | ⟨s, r, rfl⟩
  · obtain rfl := List.mem_singleton.mp he
    simp [Event.top, carriedSignal] at hsignal
  · simp only [Event.top, List.mem_cons, List.not_mem_nil, or_false] at he
    rcases he with rfl | rfl
    · simp [carriedSignal] at hsignal
    · exact (Option.some.inj hsignal).symm

/-- A routed request has only its own signal scored. -/
theorem carried_of_routed [Field K] {platform : Platform K} {properties : SecurityProperties K}
    {exchange : Exchange} {clientIp path : String} {rate10s : ℤ} {signal : RequestSignalDTO K}
    {tr : Events K} {m' : Program K Unit}
    (h : Routed platform properties exchange clientIp path rate10s signal m' tr) :
    ∀ e ∈ tr, carriedSignal e.op = none ∨ carriedSignal e.op = some signal := by
  cases h with
  | waiting => simp
  | direct _ hchain =>
    exact forall_of_isPrefix (fun op => carriedSignal op = none ∨ carriedSignal op = some signal)
      hchain.1 (by simp [carriedSignal])
  | undecided => simp [Event.top, carriedSignal]
  | @enforced reply result after _ _ henforce =>
    refine List.forall_mem_cons.mpr ⟨.inr rfl, forall_of_isPrefix
      (fun op => carriedSignal op = none ∨ carriedSignal op = some signal) henforce.1 ?_⟩
    unfold enforcement
    split
    · cases result.reason <;> simp [carriedSignal]
    · simp [carriedSignal]

/-- Publishing and routing a signal carries that signal only. -/
theorem carried_of_parts [Field K] {platform : Platform K} {properties : SecurityProperties K}
    {exchange : Exchange} {clientIp method path clientIp' path' : String} {rate10s : ℤ}
    {signal signal' : RequestSignalDTO K} {pub rest : Events K} {m' : Program K Unit}
    (hpub : Published clientIp method path signal pub)
    (hroute : Routed platform properties exchange clientIp' path' rate10s signal m' rest)
    {e : Event (Op K) Res} (he : e ∈ pub ∨ e ∈ rest) (hsignal : carriedSignal e.op = some signal') :
    signal' = signal := by
  rcases he with hmem | hmem
  · exact carried_of_published hpub hmem hsignal
  · rcases carried_of_routed hroute e hmem with hnone | hsome
    · simp [hnone] at hsignal
    · exact Option.some.inj (hsignal.symm.trans hsome)

/-- The signal of a request is built from the claims that it was admitted with, its counts and the
clocks that it has read. -/
theorem signal_of_carried [Field K] {platform : Platform K} {properties : SecurityProperties K}
    {exchange : Exchange} {m' : Program K Unit} {tr : Events K} {signal : RequestSignalDTO K}
    (h : Progress platform properties exchange m' tr) {e : Event (Op K) Res} (he : e ∈ tr)
    (hsignal : carriedSignal e.op = some signal) :
    ∃ clientIp claims auth rate10s rate60s failStreak clocks buffers bodyString,
      resolveClientIp exchange = some clientIp ∧ Authenticated exchange claims auth ∧
      (∀ a ∈ auth, a ∈ tr) ∧ Counted exchange.path clientIp claims rate10s rate60s failStreak tr ∧
      .top .readClocks (.value clocks) ∈ tr ∧ signal = buildSignal platform properties rate10s
        rate60s failStreak clocks { exchange with body := buffers } claims exchange.path
        bodyString := by
  have hquiet := not_collecting_and_not_rejecting_of_carried hsignal
  obtain ⟨clientIp, claims, auth, rate10s, rate60s, failStreak, clocks, buffers, bodyString,
    signal', pub, rest, hresolved, hauth, hsub, hcounted, hclocks, hbuilt, hpub, hroute, hlater, -⟩ :=
    published_of_call h he hquiet.1 hquiet.2
  have hsame : signal = signal' := carried_of_parts hpub hroute (hlater e he hquiet.1) hsignal
  exact ⟨clientIp, claims, auth, rate10s, rate60s, failStreak, clocks, buffers, bodyString,
    hresolved, hauth, hsub, hcounted, hclocks, hsame.trans hbuilt⟩

/-- All calls of a request that carry a signal carry the same one. -/
theorem carried_eq [Field K] {platform : Platform K} {properties : SecurityProperties K}
    {exchange : Exchange} {m' : Program K Unit} {tr : Events K}
    (h : Progress platform properties exchange m' tr) {e e' : Event (Op K) Res} (he : e ∈ tr)
    (he' : e' ∈ tr) {signal signal' : RequestSignalDTO K}
    (hsignal : carriedSignal e.op = some signal) (hsignal' : carriedSignal e'.op = some signal') :
    signal = signal' := by
  have hquiet := not_collecting_and_not_rejecting_of_carried hsignal
  obtain ⟨clientIp, claims, auth, rate10s, rate60s, failStreak, clocks, buffers, bodyString, built,
    pub, rest, -, -, -, -, -, -, hpub, hroute, hlater, -⟩ :=
    published_of_call h he hquiet.1 hquiet.2
  have hbuilt : ∀ a ∈ tr, ∀ s, carriedSignal a.op = some s → s = built := by
    intro a ha s hs
    have hloud := (not_collecting_and_not_rejecting_of_carried hs).1
    exact carried_of_parts hpub hroute (hlater a ha hloud) hs
  rw [hbuilt e he _ hsignal, hbuilt e' he' _ hsignal']

/-- A request whose lookup finds its client is rejected and does nothing else. -/
theorem rejected_of_lookup [Field K] {platform : Platform K} {properties : SecurityProperties K}
    {exchange : Exchange} {m' : Program K Unit} {tr : Events K} {path : List Branch} {c : String}
    (h : Progress platform properties exchange m' tr)
    (hmem : ⟨path, .redis (.hasKey (RedisStateService.blocklistKey c)), .value true⟩ ∈ tr) :
    resolveClientIp exchange = some c ∧ ∃ auth rej, tr = auth ++ lookup c (.value true) :: rej ∧
      (∀ e ∈ auth, ∃ token, e.op = .parseSignedClaims token) ∧
      Follows (rejection 403 "Client is temporarily blocked") rej m' := by
  have hrejection : ∀ {status reason} {rej : Events K}, Follows (rejection status reason) rej m' →
      ⟨path, .redis (.hasKey (RedisStateService.blocklistKey c)), .value true⟩ ∉ rej :=
    fun hrej hmem => rejecting_of_rejection hrej _ hmem
  cases h with
  | refused href =>
    cases href with
    | waiting hm hpre => exact absurd rfl (hpre _ hmem)
    | unauthenticated hauth hrej =>
      rcases List.mem_append.mp hmem with hmem | hmem
      · cases hauth <;> simp [Event.top] at hmem
      · exact absurd hmem (hrejection hrej)
    | @blocked clientIp claims auth rej hresolved hauth hrej =>
      have hparse : ∀ e ∈ auth, ∃ token, e.op = .parseSignedClaims token := by
        cases hauth <;> simp [Event.top]
      rcases List.mem_append.mp hmem with hmem | hmem
      · obtain ⟨token, hop⟩ := hparse _ hmem
        simp at hop
      · rcases List.mem_cons.mp hmem with heq | hmem
        · simp only [lookup, Event.top, Event.mk.injEq, Op.redis.injEq, Command.hasKey.injEq,
            RedisStateService.blocklistKey_inj] at heq
          obtain ⟨-, rfl, -⟩ := heq
          exact ⟨hresolved, auth, rej, rfl, hparse, hrej⟩
        · exact absurd hmem (hrejection hrej)
  | counting hm hpre hcounts =>
    rcases List.mem_append.mp hmem with hmem | hmem
    · exact absurd rfl (hpre.preliminary _ hmem)
    · exact (counterCall_of_counting hcounts _ hmem).elim
  | counted hm hpre hcounts hrest =>
    rcases phase_of_mem hpre hcounts hmem with hpreliminary | hcounter | hmem
    · exact absurd rfl hpreliminary
    · exact hcounter.elim
    · rcases hrest _ hmem with hop | hop <;> simp at hop
  | published hpre hcounts hsignal hpub hroute =>
    rcases phase_of_mem hpre hcounts hmem with hpreliminary | hcounter | hmem
    · exact absurd rfl hpreliminary
    · exact hcounter.elim
    · rcases List.mem_cons.mp hmem with heq | hmem
      · simp [Event.top] at heq
      · rcases List.mem_append.mp hmem with hmem | hmem
        · rcases hpub with ⟨r, -, rfl⟩ | ⟨s, r, rfl⟩ <;> simp [Event.top] at hmem
        · exact (acting_of_routed hroute _ hmem).elim

end ApiFirewall.Gateway.ZeroTrustFilter
