import ApiFirewall.Guarantees.Enforcement

/-!
# The audit trail of the gateway

The filter publishes the telemetry of a request between the counters and the decision. A request
that it answers earlier, because of its credentials or because the client is on the blocklist,
leaves no record; every other answered request leaves exactly one.
-/

namespace ApiFirewall.Guarantees

open ApiFirewall.Gateway ApiFirewall.Gateway.ZeroTrustFilter ApiFirewall.KeyValue
open ApiFirewall.Reactive

variable {K : Type}

/-- The call answers the request: it writes a rejection or hands the request on. -/
def isAnswer : Op K → Bool
  | .writeWith _ => true
  | .chain _ => true
  | _ => false

/-- The records that a request has handed to the broker. -/
def sentRecords (events : Events K) : List (ProducerRecord K) := events.filterMap sentRecord

@[simp] theorem sentRecords_append (a b : Events K) :
    sentRecords (a ++ b) = sentRecords a ++ sentRecords b := List.filterMap_append

@[simp] theorem sentRecords_cons (e : Event (Op K) Res) (events : Events K) :
    sentRecords (e :: events) = (sentRecord e).toList ++ sentRecords events := by
  cases h : sentRecord e <;> simp [sentRecords, h]

/-- The record is telemetry of the request. -/
def Describes (exchange : Exchange) (record : ProducerRecord K) : Prop :=
  record.topic = KafkaRequestPublisher.rawTopic ∧
    resolveClientIp exchange = some record.value.clientIp ∧
    record.value.method = exchange.method ∧ record.value.endpoint = exchange.path

/-- The path is public or the token was accepted, and no lookup found the client blocked. -/
def Passed (exchange : Exchange) (events : Events K) : Prop :=
  (exchange.path ∈ publicPaths ∨ ∃ token c,
    JwtAuthValidator.bearerToken (exchange.getFirst "Authorization") = some token ∧
      Event.top (.parseSignedClaims token) (.value (.claims c)) ∈ events) ∧
  ∀ clientIp, lookup clientIp (.value true) ∉ events

/-- Calls that only collect neither answer nor send. -/
private theorem silent_of_collecting {events : Events K} (h : ∀ e ∈ events, Collecting e.op) :
    (∀ e ∈ events, isAnswer e.op = false) ∧ sentRecords events = [] := by
  have hop : ∀ e ∈ events, isAnswer e.op = false ∧ sentRecord e = none := by
    intro e he
    have hcollecting := h e he
    unfold sentRecord
    revert hcollecting
    cases e.op <;> simp [Collecting, isAnswer]
  exact ⟨fun e he => (hop e he).1, List.filterMap_eq_nil_iff.mpr fun e he => (hop e he).2⟩

/-- Rejecting and routing a request sends nothing. -/
private theorem sentRecords_of_isPrefix {events : Events K} {ops : List (Op K)}
    (h : events.map Event.op <+: ops) (hops : ∀ op ∈ ops, ∀ record, op ≠ .send record) :
    sentRecords events = [] := by
  refine List.filterMap_eq_nil_iff.mpr fun e he => ?_
  have hop := hops e.op (h.subset (List.mem_map_of_mem he))
  unfold sentRecord
  revert hop
  cases e.op <;> simp

/-- A rejection sends nothing. -/
private theorem sentRecords_of_rejection {status : ℕ} {reason : String} {rej : Events K}
    {m' : Program K Unit} (h : Follows (rejection status reason) rej m') : sentRecords rej = [] :=
  sentRecords_of_isPrefix h.1 (by simp [rejection])

/-- What a rejection does is no evidence of credentials. -/
private theorem parse_not_mem_rejection {status : ℕ} {reason token : String} {c : Claims}
    {rej : Events K} {m' : Program K Unit} (h : Follows (rejection status reason) rej m') :
    Event.top (.parseSignedClaims token) (.value (.claims c)) ∉ rej :=
  fun hmem => rejecting_of_rejection h _ hmem

section Filter

variable {platform : Platform K} {properties : SecurityProperties K} {exchange : Exchange}
  {m' : Program K Unit}

/-- A refused request that is answered has not passed and has sent nothing. -/
private theorem not_passed_of_refused {tr : Events K} (h : Refused exchange m' tr)
    (hanswered : ∃ e ∈ tr, isAnswer e.op = true) : sentRecords tr = [] ∧ ¬ Passed exchange tr := by
  cases h with
  | waiting hm hpre =>
    obtain ⟨e, he, hans⟩ := hanswered
    rw [(silent_of_collecting fun e he => (hpre e he).collecting).1 e he] at hans
    exact absurd hans Bool.false_ne_true
  | @unauthenticated auth rej hauth hrej =>
    have hsent : sentRecords auth = [] := by cases hauth <;> rfl
    refine ⟨by rw [sentRecords_append, hsent, sentRecords_of_rejection hrej]; rfl, ?_⟩
    rintro ⟨hpublic | ⟨token, c, -, hmem⟩, -⟩
    · cases hauth with
      | missing hpath => exact hpath hpublic
      | rejected hpath => exact hpath hpublic
    · rcases List.mem_append.mp hmem with hmem | hmem
      · cases hauth with
        | missing => simp at hmem
        | rejected => simp [Event.top] at hmem
      · exact parse_not_mem_rejection hrej hmem
  | @blocked clientIp claims auth rej hresolved hauth hrej =>
    have hsent : sentRecords auth = [] :=
      (silent_of_collecting fun e he => (hauth.preliminary e he).collecting).2
    refine ⟨?_, fun hpassed => hpassed.2 clientIp (by simp)⟩
    rw [sentRecords_append, sentRecords_cons, hsent, sentRecords_of_rejection hrej]
    rfl

/-- A request that has its counts has passed. -/
private theorem passed_of_admitted {clientIp : String} {claims : Option Claims}
    {pre counts mid : Events K} {a b c : Program K ℤ}
    (hpre : Admitted exchange clientIp claims pre)
    (hcounts : Counting clientIp exchange.path claims counts a b c)
    (hmid : ∀ clientIp, lookup clientIp (.value true) ∉ mid) :
    Passed exchange (pre ++ (counts ++ mid)) := by
  refine ⟨?_, fun clientIp hmem => ?_⟩
  · obtain ⟨-, auth, body, rfl, hauth, -⟩ := hpre
    cases hauth with
    | publicPath hpath => exact .inl hpath
    | @token token c hpath htoken => exact .inr ⟨token, c, htoken, by simp⟩
  · rcases phase_of_mem hpre hcounts hmem with hpreliminary | hcounter | hmem
    · exact hpreliminary rfl
    · exact hcounter.elim
    · exact hmid clientIp hmem

variable [Field K]

/-- Routing a request looks nothing up and sends nothing. -/
private theorem silent_route {clientIp path : String} {rate10s : ℤ} {signal : RequestSignalDTO K}
    {rest : Events K}
    (h : Routed platform properties exchange clientIp path rate10s signal m' rest) :
    (∀ client, lookup client (.value true) ∉ rest) ∧ sentRecords rest = [] := by
  refine ⟨fun client hmem => acting_of_routed h _ hmem, List.filterMap_eq_nil_iff.mpr fun e he => ?_⟩
  have hacting := acting_of_routed h e he
  unfold sentRecord
  revert hacting
  cases e.op <;> simp [Acting]

/-- A request has sent nothing, or one record of itself. -/
theorem sentRecords_cases {tr : Events K} (h : Progress platform properties exchange m' tr) :
    sentRecords tr = [] ∨ ∃ record, sentRecords tr = [record] ∧ Describes exchange record := by
  have hquiet : ∀ {events : Events K}, (∀ e ∈ events, Collecting e.op) → sentRecords events = [] :=
    fun hall => (silent_of_collecting hall).2
  cases h with
  | refused href =>
    left
    cases href with
    | waiting _ hpre => exact hquiet fun e he => (hpre e he).collecting
    | unauthenticated hauth hrej =>
      have hsent := sentRecords_of_rejection hrej
      cases hauth <;> exact hsent
    | blocked _ hauth hrej =>
      rw [sentRecords_append, sentRecords_cons, sentRecords_of_rejection hrej,
        hquiet fun e he => (hauth.preliminary e he).collecting]
      rfl
  | counting _ hpre hcounts =>
    left
    rw [sentRecords_append, hquiet fun e he => (hpre.preliminary e he).collecting,
      hquiet (collecting_of_counting hcounts)]
    rfl
  | counted _ hpre hcounts hrest =>
    left
    rw [sentRecords_append, sentRecords_append,
      hquiet fun e he => (hpre.preliminary e he).collecting, hquiet (collecting_of_counting hcounts)]
    refine List.filterMap_eq_nil_iff.mpr fun e he => ?_
    unfold sentRecord
    rcases hrest e he with hop | hop <;> rw [hop]
  | @published clientIp bodyString claims buffers pre counts pub rest rate10s rate60s failStreak
      clocks signal hpre hcounts hsignal hpub hroute =>
    have hbefore : sentRecords pre = [] := hquiet fun e he => (hpre.preliminary e he).collecting
    have hcount : sentRecords counts = [] := hquiet (collecting_of_counting hcounts)
    rcases hpub with ⟨r, -, rfl⟩ | ⟨stamp, r, rfl⟩
    · left
      simp [hbefore, hcount, (silent_route hroute).2, sentRecord, Event.top]
    · right
      refine ⟨telemetry clientIp exchange.method exchange.path signal stamp, ?_, rfl, hpre.resolved,
        rfl, rfl⟩
      simp [hbefore, hcount, (silent_route hroute).2, sentRecord, Event.top]

/-- An answered request has sent exactly one record of itself if it has passed, and none
otherwise. -/
theorem sent_iff_passed_of_progress {tr : Events K}
    (h : Progress platform properties exchange m' tr)
    (hstamp : ∀ r, Event.top .stamp r ∈ tr → ∃ s, r = .value s)
    (hanswered : ∃ e ∈ tr, isAnswer e.op = true) :
    (∃ record, sentRecords tr = [record] ∧ Describes exchange record) ↔ Passed exchange tr := by
  have hsilent : ∀ {events : Events K}, (∀ e ∈ events, Collecting e.op) →
      ∀ e ∈ events, isAnswer e.op ≠ true := fun hall e he hans => by
    rw [(silent_of_collecting hall).1 e he] at hans
    exact Bool.false_ne_true hans
  cases h with
  | refused href =>
    obtain ⟨hnone, hfail⟩ := not_passed_of_refused href hanswered
    simp [hnone, hfail]
  | counting hm hpre hcounts =>
    obtain ⟨e, he, hans⟩ := hanswered
    rcases List.mem_append.mp he with hmem | hmem
    · exact absurd hans (hsilent (fun e he => (hpre.preliminary e he).collecting) e hmem)
    · exact absurd hans (hsilent (collecting_of_counting hcounts) e hmem)
  | counted hm hpre hcounts hrest =>
    obtain ⟨e, he, hans⟩ := hanswered
    rcases phase_of_mem hpre hcounts he with hpreliminary | hcounter | hmem
    · exact absurd hans (hsilent (by simp [hpreliminary.collecting]) e (List.mem_singleton_self e))
    · exact absurd hans (hsilent (by simp [hcounter.collecting]) e (List.mem_singleton_self e))
    · rcases hrest e hmem with hop | hop <;> simp [hop, isAnswer] at hans
  | @published clientIp bodyString claims buffers pre counts pub rest rate10s rate60s failStreak
      clocks signal hpre hcounts hsignal hpub hroute =>
    have hquiet := silent_route hroute
    have hpresent : sentRecords pre = [] :=
      (silent_of_collecting fun e he => (hpre.preliminary e he).collecting).2
    have hcount : sentRecords counts = [] :=
      (silent_of_collecting (collecting_of_counting hcounts)).2
    rcases hpub with ⟨r, hr, rfl⟩ | ⟨stamp, r, rfl⟩
    · obtain ⟨s, hs⟩ := hstamp r (by simp)
      exact absurd hs (hr s)
    · refine iff_of_true ⟨telemetry clientIp exchange.method exchange.path signal stamp, ?_,
        rfl, hpre.resolved, rfl, rfl⟩ (passed_of_admitted hpre hcounts fun client hmem => ?_)
      · simp [hpresent, hcount, hquiet.2, sentRecord, Event.top]
      · rcases List.mem_cons.mp hmem with heq | hmem
        · simp [lookup, Event.top] at heq
        · rcases List.mem_append.mp hmem with hmem | hmem
          · simp [lookup, Event.top] at hmem
          · exact hquiet.1 client hmem

end Filter

open Deployment

/-- In every run, an answered request has left exactly one record of itself if and only if its path
is public or its token was accepted, and its client was not found on the blocklist. -/
theorem recorded_iff_passed [Field K] [LinearOrder K] [FloorRing K] (d : Deployment K)
    {w : State K} (hrun : d.system.Run Anything start w) {i : ℕ} {exchange : Exchange}
    (hi : w.labels[i]? = some (.request exchange))
    (hanswered : ∃ e ∈ w.events i, isAnswer e.op = true) :
    (∃ record, sentRecords (w.events i) = [record] ∧ Describes exchange record) ↔
      Passed exchange (w.events i) := by
  obtain ⟨m', hprogress⟩ := progress hrun hi
  refine sent_iff_passed_of_progress hprogress (fun r hr => ?_) hanswered
  obtain ⟨⟨time, thread, event⟩, he, -, rfl⟩ := mem_eventsOf.mp hr
  obtain ⟨_, _, env, _, -, hreply⟩ := hrun.replies _ he
  exact ⟨env.stamp, hreply⟩

/-- The request that registers a user leaves its record, so it has passed. -/
theorem registration_recorded :
    Passed (sampleRequest "/api/auth/register" "10.0.0.1") (registration.events 0) :=
  (recorded_iff_passed sample (System.Run.after rfl fun _ _ => trivial)
    (show registration.labels[0]? = some (.request _) from rfl)
    ⟨_, List.getLast_mem (show registration.events 0 ≠ [] from fun h => nomatch h), rfl⟩).mp
      ⟨_, rfl, rfl, rfl, rfl, rfl⟩

/-- A run in which one request without credentials asks for orders. -/
def anonymous : State ℚ :=
  sample.system.after
    (.spawn (.request (sampleRequest "/api/orders" "10.0.0.1")) :: callTop 3 0 sampleEnv) start

/-- That request is answered and leaves no record. -/
theorem anonymous_unrecorded : sample.system.Run Anything start anonymous ∧
    anonymous.labels[0]? = some (.request (sampleRequest "/api/orders" "10.0.0.1")) ∧
    (∃ e ∈ anonymous.events 0, isAnswer e.op = true) ∧
    ¬ ∃ record, sentRecords (anonymous.events 0) = [record] := by
  have hne : anonymous.events 0 ≠ [] := fun h => nomatch h
  exact ⟨System.Run.after rfl fun _ _ => trivial, rfl, ⟨_, List.getLast_mem hne, rfl⟩,
    fun ⟨record, h⟩ => nomatch h⟩

end ApiFirewall.Guarantees
