import ApiFirewall.Deployment

/-!
# Inspected and forwarded bodies

A request that is handed on carries the bytes that the client sent, in every run. The signal describes
those bytes only where the method is one of three that may have a body: for any other method the body
is passed through, and the signal describes an empty one.
-/

namespace ApiFirewall.Guarantees

open ApiFirewall.Gateway ApiFirewall.Gateway.ZeroTrustFilter ApiFirewall.KeyValue
open ApiFirewall.Reactive Deployment

section Traces

variable {K : Type}

/-- The signal describes the body: its text, the number of its fields and its numbers. -/
structure Inspected (platform : Platform K) (body : Bytes) (signal : RequestSignalDTO K) [Field K] :
    Prop where
  rawBody : signal.rawBody = decodeUtf8 body
  paramCount : signal.paramCount = countTopLevelFields platform (decodeUtf8 body)
  numericFields : signal.numericFields = extractNumericFields platform (decodeUtf8 body)

/-- Octets decode to the empty text only if there are none. -/
theorem decodeUtf8_eq_empty {bytes : Bytes} : decodeUtf8 bytes = "" ↔ bytes = [] := by
  constructor
  · intro h
    cases bytes with
    | nil => rfl
    | cons b rest =>
      have hlist := congrArg String.toList h
      simp [decodeUtf8, decodeAfter] at hlist
  · rintro rfl
    rfl

/-- The request that a call hands on. -/
def handedOn : Op K → Option Exchange
  | .chain exchange => some exchange
  | _ => none

/-- A call that hands a request on is that call. -/
theorem op_of_handedOn {op : Op K} {exchange : Exchange} (h : handedOn op = some exchange) :
    op = .chain exchange := by
  unfold handedOn at h
  split at h
  · exact congrArg Op.chain (Option.some.inj h)
  · cases h

variable [Field K] {platform : Platform K} {properties : SecurityProperties K}

/-- A routed request is handed on as it is. -/
theorem eq_of_chain {exchange exchange' : Exchange} {clientIp path : String} {rate10s : ℤ}
    {signal : RequestSignalDTO K} {tr : Events K} {m' : Program K Unit}
    (h : Routed platform properties exchange clientIp path rate10s signal m' tr)
    {e : Event (Op K) Res} (he : e ∈ tr) (hop : e.op = .chain exchange') : exchange' = exchange := by
  have hcalls : ∀ e ∈ tr, ∀ exchange', e.op = .chain exchange' → exchange' = exchange := by
    cases h with
    | waiting => simp
    | direct _ hchain =>
      exact forall_of_isPrefix (fun op => ∀ exchange', op = .chain exchange' → exchange' = exchange)
        hchain.1 (by simp)
    | undecided => simp [Event.top]
    | @enforced reply result after _ _ henforce =>
      refine List.forall_mem_cons.mpr ⟨by simp [Event.top], forall_of_isPrefix
        (fun op => ∀ exchange', op = .chain exchange' → exchange' = exchange) henforce.1 ?_⟩
      unfold enforcement
      split
      · cases result.reason <;> simp
      · simp
  exact hcalls e he exchange' hop

omit [Field K] in
/-- A finished publication has handed its signal to the broker, or could not stamp it. -/
theorem sent_of_published {clientIp method path : String} {signal : RequestSignalDTO K}
    {pub : Events K} (h : Published clientIp method path signal pub) :
    (∃ r, .top .stamp r ∈ pub ∧ ∀ s, r ≠ .value s) ∨
      ∃ e ∈ pub, carriedSignal e.op = some signal := by
  rcases h with ⟨r, hr, rfl⟩ | ⟨s, r, rfl⟩
  · exact .inl ⟨r, List.mem_singleton_self _, hr⟩
  · exact .inr ⟨_, List.mem_cons_of_mem _ (List.mem_singleton_self _), rfl⟩

/-- A request that has made a call other than collecting or rejecting has replayed its body and
published the signal of that body, and every further such call publishes or routes it. -/
theorem replayed_of_call {exchange : Exchange} {tr : Events K} {m' : Program K Unit}
    (h : Trace (filter platform properties exchange) tr m') {e : Event (Op K) Res} (he : e ∈ tr)
    (hcollecting : ¬ Collecting e.op) (hrejecting : ¬ Rejecting e.op) :
    ∃ clientIp claims rate10s rate60s failStreak clocks buffers bodyString signal pub rest,
      Replays exchange exchange.method tr buffers bodyString ∧
      signal = buildSignal platform properties rate10s rate60s failStreak clocks
        { exchange with body := buffers } claims exchange.path bodyString ∧
      Published clientIp exchange.method exchange.path signal pub ∧
      Routed platform properties { exchange with body := buffers } clientIp exchange.path rate10s
        signal m' rest ∧
      (∀ a ∈ tr, ¬ Collecting a.op → a ∈ pub ∨ a ∈ rest) ∧ ∀ a ∈ pub, a ∈ tr := by
  rcases filter_trace h with href |
    ⟨clientIp, claims, pre, after, buffers, bodyString, rfl, hpre, hreplays, hafter⟩
  · exact ((collecting_or_rejecting_of_refused href e he).elim hcollecting hrejecting).elim
  rcases continuePipeline_trace hafter with ⟨-, a, b, c, hcounts⟩ |
    ⟨counts, after, rate10s, rate60s, failStreak, rfl, hcounts, hafter⟩
  · rcases List.mem_append.mp he with hmem | hmem
    · exact absurd (hpre.preliminary e hmem).collecting hcollecting
    · exact absurd (collecting_of_counting hcounts e hmem) hcollecting
  have hlate : ∀ a ∈ pre ++ (counts ++ after), ¬ Collecting a.op → a ∈ after := by
    intro a ha hloud
    rcases phase_of_mem hpre hcounts ha with hpreliminary | hcounter | hmem
    · exact absurd hpreliminary.collecting hloud
    · exact absurd hcounter.collecting hloud
    · exact hmem
  rcases assess_trace hafter with ⟨-, hops⟩ | ⟨clocks, pub, rest, rfl, hpub, hroute⟩
  · rcases hops e (hlate e he hcollecting) with hop | hop <;> simp [hop, Collecting] at hcollecting
  refine ⟨clientIp, claims, rate10s, rate60s, failStreak, clocks, buffers, bodyString, _, pub, rest,
    hreplays.mono fun a ha => List.mem_append_left _ ha, rfl, hpub, hroute, ?_,
    fun a ha => by simp [ha]⟩
  intro a ha hloud
  rcases List.mem_cons.mp (hlate a ha hloud) with rfl | hmem
  · exact absurd trivial hloud
  · exact List.mem_append.mp hmem

/-- A request that was handed on replays its body, and all its signals are built from the text that is
inspected of it. -/
theorem replays_of_chain {exchange exchange' : Exchange} {tr : Events K} {m' : Program K Unit}
    (h : Trace (filter platform properties exchange) tr m') {e : Event (Op K) Res} (he : e ∈ tr)
    (hop : e.op = .chain exchange') :
    ∃ bodyString signal, Replays exchange exchange.method tr exchange'.body bodyString ∧
      signal.rawBody = (bodyString : Wire.Text) ∧
      signal.paramCount = countTopLevelFields platform bodyString ∧
      signal.numericFields = extractNumericFields platform bodyString ∧
      (∀ a ∈ tr, ∀ signal', carriedSignal a.op = some signal' → signal' = signal) ∧
      ((∃ r, .top .stamp r ∈ tr ∧ ∀ s, r ≠ .value s) ∨
        ∃ a ∈ tr, carriedSignal a.op = some signal) := by
  have hloud : ¬ Collecting e.op := by rw [hop]; exact id
  have hkept : ¬ Rejecting e.op := by rw [hop]; exact id
  obtain ⟨clientIp, claims, rate10s, rate60s, failStreak, clocks, buffers, bodyString, signal, pub,
    rest, hreplays, hsignal, hpub, hroute, hparts, hsub⟩ := replayed_of_call h he hloud hkept
  have hbody : exchange' = { exchange with body := buffers } := by
    rcases hparts e he hloud with hmem | hmem
    · rcases hpub with ⟨r, -, rfl⟩ | ⟨s, r, rfl⟩ <;> simp [Event.top] at hmem <;>
        rcases hmem with rfl | rfl <;> simp at hop
    · exact eq_of_chain hroute hmem hop
  refine ⟨bodyString, signal, hbody ▸ hreplays, by rw [hsignal]; rfl, by rw [hsignal]; rfl,
    by rw [hsignal]; rfl, ?_, ?_⟩
  · intro a ha signal' hcarried
    have hquiet := not_collecting_and_not_rejecting_of_carried hcarried
    exact carried_of_parts hpub hroute (hparts a ha hquiet.1) hcarried
  · rcases sent_of_published hpub with ⟨r, hr, hvalue⟩ | ⟨a, ha, hcarried⟩
    · exact .inl ⟨r, hsub _ hr, hvalue⟩
    · exact .inr ⟨a, hsub a ha, hcarried⟩

end Traces

section Runs

variable {K : Type} [Field K] [LinearOrder K] [FloorRing K] {d : Deployment K}
variable {P : Action Stimulus (Env K) → Prop} {w : State K}

/-- A body that was read is the body that was sent. -/
theorem bytesRead_of_run (hrun : d.system.Run P start w) {i : ℕ} {body : List Bytes}
    {r : Signal (List Bytes)} (hmem : .top (.readBody body) r ∈ w.events i) {bytes : Bytes}
    (hbytes : bytesRead r = some bytes) : bytes = body.flatten := by
  obtain ⟨entry, hentry, -, hevent⟩ := mem_eventsOf.mp hmem
  obtain ⟨_, _, env, s, -, hreply⟩ := hrun.replies entry hentry
  rw [hevent] at hreply
  change r = if env.succeeds then .value body else .error at hreply
  rw [hreply] at hbytes
  split at hbytes
  · exact (Option.some.inj hbytes).symm
  · cases hbytes

/-- Stamping an envelope does not fail. -/
theorem stamped_of_run (hrun : d.system.Run P start w) {i : ℕ} {r : Signal Stamp}
    (hmem : .top .stamp r ∈ w.events i) : ∃ s, r = .value s := by
  obtain ⟨entry, hentry, -, hevent⟩ := mem_eventsOf.mp hmem
  obtain ⟨_, _, env, s, -, hreply⟩ := hrun.replies entry hentry
  rw [hevent] at hreply
  exact ⟨env.stamp, hreply⟩

/-- The signals of a thread describe the body, and there is one. -/
def SignalsDescribe (d : Deployment K) (w : State K) (i : ℕ) (body : Bytes) : Prop :=
  (∃ e ∈ w.events i, (carriedSignal e.op).isSome = true) ∧
    ∀ e ∈ w.events i, ∀ signal, carriedSignal e.op = some signal →
      Inspected d.platform body signal

/-- A request that is handed on replays its body, and its signals describe exactly the bodies with the
text that was inspected of it. -/
theorem replays_of_run (hrun : d.system.Run P start w) {i : ℕ} {exchange : Exchange}
    (hi : w.labels[i]? = some (.request exchange)) {e : Event (Op K) Res} (he : e ∈ w.events i)
    {exchange' : Exchange} (hop : e.op = .chain exchange') :
    ∃ bodyString, Replays exchange exchange.method (w.events i) exchange'.body bodyString ∧
      ∀ body, bodyString = decodeUtf8 body ↔ SignalsDescribe d w i body := by
  obtain ⟨m, hm⟩ := World.exists_thread hi
  obtain ⟨m', htrace, -⟩ := hrun.coherent.trace i _ m hm
  obtain ⟨bodyString, signal, hreplays, hraw, hcount, hnumeric, hunique, hsent⟩ :=
    replays_of_chain htrace he hop
  obtain ⟨a, ha, hcarried⟩ : ∃ a ∈ w.events i, carriedSignal a.op = some signal := by
    rcases hsent with ⟨r, hr, hvalue⟩ | hsent
    · obtain ⟨s, rfl⟩ := stamped_of_run hrun hr
      exact absurd rfl (hvalue s)
    · exact hsent
  refine ⟨bodyString, hreplays, fun body => ?_⟩
  constructor
  · rintro rfl
    refine ⟨⟨a, ha, by rw [hcarried]; rfl⟩, fun e he signal' hsignal' => ?_⟩
    rw [hunique e he signal' hsignal']
    exact ⟨hraw, hcount, hnumeric⟩
  · rintro ⟨-, hall⟩
    exact Wire.Text.ofString_inj.mp (hraw.symm.trans (hall a ha signal hcarried).rawBody)

/-- A request with a method that may have a body is handed on with the bytes that the client sent, and
its signals describe them. -/
theorem signalsDescribe_of_run (hrun : d.system.Run P start w) {i : ℕ} {exchange : Exchange}
    (hi : w.labels[i]? = some (.request exchange)) (hmethod : mayHaveBody exchange.method = true)
    {e : Event (Op K) Res} (he : e ∈ w.events i) {exchange' : Exchange}
    (hop : e.op = .chain exchange') :
    exchange'.body.flatten = exchange.body.flatten ∧
      SignalsDescribe d w i exchange'.body.flatten := by
  obtain ⟨bodyString, hreplays, hdescribe⟩ := replays_of_run hrun hi he hop
  rw [← hdescribe]
  generalize hbuffers : exchange'.body = buffers at hreplays
  cases hreplays with
  | @read r bytes _ hread hbytes =>
    have hsame := bytesRead_of_run hrun hread hbytes
    have hflat : [bytes].flatten = exchange.body.flatten := by simp [hsame]
    rw [hflat, hsame]
    exact ⟨rfl, rfl⟩
  | skipped hskipped =>
    rw [hmethod] at hskipped
    cases hskipped

/-- In every run, a request that is handed on carries the bytes that the client sent, and its published
and scored signals describe them exactly if its method may have a body or it has none. -/
theorem inspected_iff_mayHaveBody (hrun : d.system.Run P start w) {i : ℕ} {exchange : Exchange}
    (hi : w.labels[i]? = some (.request exchange)) {e : Event (Op K) Res} (he : e ∈ w.events i)
    {exchange' : Exchange} (hop : e.op = .chain exchange') :
    exchange'.body.flatten = exchange.body.flatten ∧
      (SignalsDescribe d w i exchange'.body.flatten ↔
        mayHaveBody exchange.method = true ∨ exchange.body.flatten = []) := by
  by_cases hmethod : mayHaveBody exchange.method = true
  · obtain ⟨hsame, hdescribe⟩ := signalsDescribe_of_run hrun hi hmethod he hop
    exact ⟨hsame, iff_of_true hdescribe (.inl hmethod)⟩
  · obtain ⟨bodyString, hreplays, hdescribe⟩ := replays_of_run hrun hi he hop
    rw [← hdescribe]
    generalize hbuffers : exchange'.body = buffers at hreplays
    cases hreplays with
    | read hread => exact absurd hread hmethod
    | skipped hskipped =>
      refine ⟨rfl, ?_⟩
      rw [eq_comm, decodeUtf8_eq_empty]
      simp [hskipped]

end Runs

/-- A request that deletes an order, with a body. -/
def deletion : Exchange :=
  { path := "/api/orders/7", method := "DELETE", headers := [("Authorization", "Bearer good")],
    remoteAddress := some "203.0.113.7", body := [[0x78], [0x79]] }

/-- A run in which the request is handed on. -/
def deletionRun : State ℚ :=
  sample.system.after
    (.spawn (.request deletion) :: callTop 2 0 sampleEnv ++ callCounters true 0 sampleEnv ++
      callTop 4 0 sampleEnv) start

/-- A run in which the same request is sent as a `PUT`. -/
def replacementRun : State ℚ :=
  sample.system.after
    (.spawn (.request { deletion with method := "PUT" }) :: callTop 3 0 sampleEnv ++
      callCounters true 0 sampleEnv ++ callTop 4 0 sampleEnv) start

/-- A call of a run that hands a request on. -/
theorem exists_handedOn (w : State ℚ) (i : ℕ) (exchange : Exchange)
    (h : (w.events i).filterMap (fun e => handedOn e.op) = [exchange]) :
    ∃ e ∈ w.events i, e.op = .chain exchange := by
  have hmem : exchange ∈ (w.events i).filterMap fun e => handedOn e.op := by
    rw [h]
    exact List.mem_singleton_self _
  obtain ⟨e, he, hop⟩ := List.mem_filterMap.mp hmem
  exact ⟨e, he, op_of_handedOn hop⟩

/-- The body of the `PUT` is described by its signal. -/
theorem replacement_inspected :
    SignalsDescribe sample replacementRun 0 [0x78, 0x79] := by
  obtain ⟨hrun, hhanded⟩ : sample.system.Run Anything start replacementRun ∧
      (replacementRun.events 0).filterMap (fun e => handedOn e.op) =
        [{ deletion with method := "PUT", body := [[0x78, 0x79]] }] :=
    System.Run.after_and (by decide +kernel) fun _ _ => trivial
  obtain ⟨e, he, hop⟩ := exists_handedOn _ _ _ hhanded
  have hi : replacementRun.labels[0]? = some (.request { deletion with method := "PUT" }) := rfl
  exact (inspected_iff_mayHaveBody hrun hi he hop).2.mpr (.inl (by decide))

/-- The body of the `DELETE` reaches the backend, and no signal describes it. -/
theorem deletion_uninspected :
    ¬ ∀ (d : Deployment ℚ) (w : State ℚ), d.system.Run Anything start w →
      ∀ (i : ℕ) (exchange : Exchange), w.labels[i]? = some (.request exchange) →
      ∀ e ∈ w.events i, ∀ exchange', e.op = .chain exchange' →
        exchange'.body.flatten = exchange.body.flatten ∧
          SignalsDescribe d w i exchange'.body.flatten := by
  intro h
  obtain ⟨hrun, hhanded, hraw⟩ : sample.system.Run Anything start deletionRun ∧
      (deletionRun.events 0).filterMap (fun e => handedOn e.op) = [deletion] ∧
      (deletionRun.events 0).filterMap
        (fun e => (carriedSignal e.op).map fun signal => signal.rawBody) = [("" : Wire.Text)] :=
    System.Run.after_and (by decide +kernel) fun _ _ => trivial
  obtain ⟨e, he, hop⟩ := exists_handedOn _ _ _ hhanded
  obtain ⟨-, ⟨a, ha, hsome⟩, hall⟩ := h sample deletionRun hrun 0 deletion rfl e he _ hop
  obtain ⟨signal, hsignal⟩ := Option.isSome_iff_exists.mp hsome
  have hempty : signal.rawBody = ("" : Wire.Text) := by
    have hmem : signal.rawBody ∈ (deletionRun.events 0).filterMap
        fun e => (carriedSignal e.op).map fun signal => signal.rawBody :=
      List.mem_filterMap.mpr ⟨a, ha, by rw [hsignal]; rfl⟩
    rw [hraw] at hmem
    exact List.mem_singleton.mp hmem
  have htext := (hall a ha signal hsignal).rawBody
  rw [hempty, Wire.Text.ofString_inj, eq_comm, decodeUtf8_eq_empty] at htext
  exact absurd htext (by decide)

end ApiFirewall.Guarantees
