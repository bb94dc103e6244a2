import ApiFirewall.Guarantees.AuditTrail
import ApiFirewall.Guarantees.MalformedRecords
import ApiFirewall.Guarantees.TelemetryText
import ApiFirewall.Reactive.ThreadOrder
import Mathlib.Data.List.ReduceOption

/-!
# The audit pipeline

Telemetry passes three services on its way to the search engine: the gateway writes records, the
consumer of the engine turns them into records of audit events, and the indexer passes these to bulk
calls. No text on the way is lost or read as anything else. So if no call of the consumer fails, the
documents of the bulk calls are the audit events of the requests that have passed, once each.
-/

namespace ApiFirewall.Guarantees

open ApiFirewall.Wire ApiFirewall.Wire.JsonText ApiFirewall.Gateway ApiFirewall.Engine
open ApiFirewall.Engine.KafkaConsumer ApiFirewall.Indexer ApiFirewall.KeyValue
open ApiFirewall.Reactive Deployment

section Events

variable {K : Type}

/-- The scores of an audit event are denoted by their texts. -/
def ScoresDenoted (decimal : Text → Double K) (repr : K → String) (event : AuditEvent K) :
    Prop :=
  ∀ x ∈ [event.isolationScore, event.xgboostScore, event.finalScore],
    Denoted (dialect decimal) (withConstants repr) (.finite x)

/-- The records of audit events. -/
def auditRecords (repr : K → String) (events : List (AuditEvent K)) : List Bytes :=
  events.map fun event => serialize repr event.toJson

variable [Field K] [LinearOrder K] [FloorRing K] {config : EngineConfig K}
  {decimal : Text → Double K} {repr : K → String}

/-- The event of an envelope is read back from its record. -/
theorem deserialize_auditRecord {envelope : Envelope K} {order : MapOrder K} {event : AuditEvent K}
    (h : auditOf config (envelope.received order) = some event)
    (hscores : ScoresDenoted decimal repr event) :
    deserialize decimal (serialize repr event.toJson) = some event.toJson := by
  obtain ⟨⟨members, result⟩, hm, rfl⟩ := Option.map_eq_some_iff.mp h
  have hmembers := (scoredMessage_eq_some.mp hm).1
  rw [Envelope.received_eq] at hmembers
  obtain rfl := Json.obj.inj hmembers
  apply deserialize_serialize
  apply throughout_auditEvent
  · intro v hv
    simp only [List.mem_cons, List.not_mem_nil, or_false] at hv
    rcases hv with rfl | rfl | rfl | rfl | rfl <;> exact .str (Text.unpaired_ofString _)
  · exact fun x hx y _ => hscores x hx

omit [Field K] [LinearOrder K] [FloorRing K] in
/-- The records of the events of envelopes are read back, one after the other. -/
theorem consumed_auditRecords {events : List (AuditEvent K)}
    (h : ∀ event ∈ events, deserialize decimal (serialize repr event.toJson) = some event.toJson) :
    consumed (deserialize decimal) (auditRecords repr events) = events.map AuditEvent.toJson := by
  induction events with
  | nil => rfl
  | cons event events ih =>
    obtain ⟨hevent, hevents⟩ := List.forall_mem_cons.mp h
    have hrest := ih hevents
    unfold auditRecords at hrest ⊢
    rw [List.map_cons, consumed, hevent, List.map_cons]
    exact congrArg _ hrest

variable {showDouble : Double K → String} {envelopes : List (Envelope K)} {records : List Bytes}
  {tr : Events K} {s : Signal Unit}

/-- The event that an envelope asks for as it is received, in some order of its maps, and that the
envelope itself asks for if the names of its signal stay apart; none if the signal cannot be scored. -/
def Audits (config : EngineConfig K) (envelope : Envelope K) (event : Option (AuditEvent K)) : Prop :=
  (∃ order, event = auditOf config (envelope.received order)) ∧
    (envelope.signal.Encodable → event = auditOf config envelope.toJson)

/-- The consumer publishes events of the envelopes, and all of them exactly if no call fails. -/
theorem published_of_records
    (hdenoted : ∀ envelope ∈ envelopes, DoublesDenoted decimal showDouble envelope)
    (hrecords : List.Forall₂ (KafkaRequestPublisher.IsRecord showDouble) envelopes records)
    (htrace : Trace (consumeLoop config (deserialize decimal) records) tr (.done s)) :
    ∃ events, List.Forall₂ (Audits config) envelopes events ∧
      (published tr).Sublist events.reduceOption ∧
      (published tr = events.reduceOption ↔ AllSucceed tr) := by
  obtain ⟨-, hdelivers⟩ := messages_of_records config hdenoted hrecords
  obtain ⟨parts, rfl, hparts⟩ := consumeLoop_trace config _ htrace
  have hpublished := published_of_parts (hparts.imp fun _ _ => worked_of_attempted)
  refine ⟨(consumed (deserialize decimal) records).map (auditOf config), ?_, ?_⟩
  · rw [List.forall₂_map_right_iff]
    refine hdelivers.imp fun envelope message hmessage => ?_
    obtain ⟨order, haudit, -⟩ := id hmessage
    exact ⟨⟨order, haudit⟩, fun hkept => (hmessage.kept hkept).1⟩
  · rw [List.reduceOption, List.filterMap_map]
    exact hpublished

/-- The scores of the events that envelopes ask for are denoted by their texts. -/
def EventsDenoted (config : EngineConfig K) (decimal : Text → Double K) (repr : K → String)
    (envelopes : List (Envelope K)) : Prop :=
  ∀ envelope ∈ envelopes, ∀ (order : MapOrder K) (event : AuditEvent K),
    auditOf config (envelope.received order) = some event → ScoresDenoted decimal repr event

/-- The records of the events that envelopes ask for are read back. -/
theorem deserialize_of_audits {events : List (Option (AuditEvent K))}
    (hscores : EventsDenoted config decimal repr envelopes)
    (h : List.Forall₂ (Audits config) envelopes events) :
    ∀ event ∈ events.reduceOption,
      deserialize decimal (serialize repr event.toJson) = some event.toJson := by
  intro event hevent
  rw [List.reduceOption_mem_iff] at hevent
  obtain ⟨n, hn, hget⟩ := List.getElem_of_mem hevent
  obtain ⟨hlength, hall⟩ := List.forall₂_iff_get.mp h
  obtain ⟨⟨order, haudit⟩, -⟩ := hall n (hlength ▸ hn) hn
  have hsome : auditOf config ((envelopes.get ⟨n, hlength ▸ hn⟩).received order) = some event :=
    haudit.symm.trans hget
  exact deserialize_auditRecord hsome (hscores _ (List.get_mem ..) order event hsome)

omit [Field K] [LinearOrder K] [FloorRing K] in
/-- An indexer that has ended has passed the published events to bulk calls, once each and in
order. -/
theorem bulks_of_published {events : List (AuditEvent K)}
    (hread : ∀ event ∈ events,
      deserialize decimal (serialize repr event.toJson) = some event.toJson)
    {batchSize : ℤ} {inputs : List (Input (Json K))} {state : AuditIndexer (Json K)}
    {bulks : List (List (Json K))}
    (hfeeds : Feeds (deserialize decimal) (auditRecords repr events) inputs)
    (hexec : AuditIndexer.exec batchSize .start inputs = some (state, bulks))
    (hstopped : state.position = .stopped) : bulks.flatten = events.map AuditEvent.toJson := by
  have hmessages := messages_of_feeds hfeeds hexec
    (by simp [AuditIndexer.Leaving, AuditIndexer.start]) hstopped
  obtain ⟨hcontents, -⟩ := AuditIndexer.conserved_of_exec hexec
  rw [AuditIndexer.unsent, hstopped, List.append_nil] at hcontents
  rw [hcontents, hmessages, consumed_auditRecords hread]

/-- From the raw topic to the bulk calls: an indexer that has ended has passed what the consumer has
published to bulk calls, and that is the events of the gateway's envelopes, once each and in order, all of
them exactly if no call of the consumer has failed. -/
theorem audit_trail_conserved
    (hdenoted : ∀ envelope ∈ envelopes, DoublesDenoted decimal showDouble envelope)
    (hscores : EventsDenoted config decimal repr envelopes)
    (hrecords : List.Forall₂ (KafkaRequestPublisher.IsRecord showDouble) envelopes records)
    (htrace : Trace (consumeLoop config (deserialize decimal) records) tr (.done s))
    {batchSize : ℤ} {inputs : List (Input (Json K))} {state : AuditIndexer (Json K)}
    {bulks : List (List (Json K))}
    (hfeeds : Feeds (deserialize decimal) (auditRecords repr (published tr)) inputs)
    (hexec : AuditIndexer.exec batchSize .start inputs = some (state, bulks))
    (hstopped : state.position = .stopped) :
    ∃ events, List.Forall₂ (Audits config) envelopes events ∧
      bulks.flatten.Sublist (events.reduceOption.map AuditEvent.toJson) ∧
      (bulks.flatten = events.reduceOption.map AuditEvent.toJson ↔ AllSucceed tr) := by
  obtain ⟨events, haudits, hsub, hiff⟩ := published_of_records hdenoted hrecords htrace
  have hread := deserialize_of_audits hscores haudits
  have hbulks := bulks_of_published (fun event hevent => hread event (hsub.subset hevent)) hfeeds hexec
    hstopped
  refine ⟨events, haudits, ?_⟩
  rw [hbulks, ← hiff]
  refine ⟨hsub.map _, fun heq => ?_, congrArg _⟩
  have hlength := congrArg List.length heq
  rw [List.length_map, List.length_map] at hlength
  exact hsub.eq_of_length hlength

end Events

/-- The text of the scores of the sample engine. -/
def plainRepr (_ : ℚ) : String := "1.0"

/-- The signals of the sample envelopes can be encoded. -/
theorem encodable_plainEnvelopes : ∀ envelope ∈ plainEnvelopes, envelope.signal.Encodable := by
  have hencodable : ∀ address, (plainEnvelope address).signal.Encodable :=
    fun address => ⟨rfl, fun _ hname => by cases hname⟩
  exact List.forall_mem_cons.mpr ⟨hencodable _, List.forall_mem_singleton.mpr (hencodable _)⟩

/-- The scores of their events are denoted. -/
theorem eventsDenoted_plainEnvelopes :
    EventsDenoted plain.engine plainDecimal plainRepr plainEnvelopes := by
  have hscores : ∀ envelope ∈ plainEnvelopes, (auditOf plain.engine envelope.toJson).map
      (fun event => [event.isolationScore, event.xgboostScore, event.finalScore]) =
        some [1, 1, 1] := by decide +kernel
  intro envelope henvelope order event haudit x hx
  rw [(asks_received plain.engine order (encodable_plainEnvelopes envelope henvelope)).1] at haudit
  have hevent := hscores envelope henvelope
  rw [haudit, Option.map_some, Option.some.injEq] at hevent
  rw [hevent] at hx
  obtain rfl : x = 1 := by simpa using hx
  exact ⟨(denoted_plain (.inr (.inl rfl))).isDecimal, rfl⟩

/-- The only event that the sample run publishes is indexed, and it is not the only one that its envelopes
ask for. -/
theorem plainConsumed_conserved : ∃ (event : AuditEvent ℚ) (events : List (Option (AuditEvent ℚ))),
    List.Forall₂ (Audits plain.engine) plainEnvelopes events ∧
      [[event.toJson]].flatten.Sublist (events.reduceOption.map AuditEvent.toJson) ∧
      [[event.toJson]].flatten ≠ events.reduceOption.map AuditEvent.toJson := by
  obtain ⟨htrace, hfailed⟩ := plainConsumed_trace
  obtain ⟨event, hpublished⟩ := List.length_eq_one_iff.mp
    (show (published (plainConsumed.log.map Entry.event)).length = 1 by decide +kernel)
  obtain ⟨events', haudits', hsub', -⟩ :=
    published_of_records doublesDenoted_plainEnvelopes isRecord_plainRecords htrace
  have hread := deserialize_of_audits eventsDenoted_plainEnvelopes haudits' event
    (hsub'.subset (hpublished ▸ List.mem_singleton_self _))
  have hfeeds : Feeds (deserialize plainDecimal)
      (auditRecords plainRepr (published (plainConsumed.log.map Entry.event)))
      [.message event.toJson, .raised, .bulk .indexed] := by
    rw [hpublished]
    exact .message hread (.shutdown (.bulk (by simp) (.nil [])))
  obtain ⟨events, haudits, hsub, hiff⟩ := audit_trail_conserved doublesDenoted_plainEnvelopes
    eventsDenoted_plainEnvelopes isRecord_plainRecords htrace hfeeds
    (show AuditIndexer.exec 200 .start _ = some (⟨.stopped, []⟩, [[event.toJson]]) from rfl) rfl
  exact ⟨event, events, haudits, hsub, fun heq => hfailed (hiff.mp heq)⟩

section Requests

variable {K : Type} [Field K] [LinearOrder K] [FloorRing K] (d : Deployment K)

/-- The documents that a request is to leave. -/
def documents (events : Events K) : List (Json K) :=
  (sentRecords events).filterMap fun record =>
    (auditOf d.engine record.value.toJson).map AuditEvent.toJson

omit [Field K] [LinearOrder K] [FloorRing K] in
/-- The envelopes that a run has handed to the broker. -/
def handedEnvelopes (w : State K) : List (Envelope K) :=
  (w.log.filterMap fun e => sentRecord e.event).map ProducerRecord.value

omit [Field K] [LinearOrder K] [FloorRing K] in
/-- An envelope that was handed to the broker is in the log. -/
theorem mem_handedEnvelopes {w : State K} {envelope : Envelope K} (h : envelope ∈ handedEnvelopes w) :
    ∃ e ∈ w.log, ∃ record, sentRecord e.event = some record ∧ record.value = envelope := by
  obtain ⟨record, hrecord, rfl⟩ := List.mem_map.mp h
  obtain ⟨e, he, hsent⟩ := List.mem_filterMap.mp hrecord
  exact ⟨e, he, record, hsent, rfl⟩

/-- The events of envelopes whose signals can be encoded are those that they ask for themselves. -/
theorem reduceOption_of_audits {config : EngineConfig K} {envelopes : List (Envelope K)}
    {events : List (Option (AuditEvent K))} (h : List.Forall₂ (Audits config) envelopes events)
    (hencodable : ∀ envelope ∈ envelopes, envelope.signal.Encodable) :
    events.reduceOption = envelopes.filterMap fun envelope => auditOf config envelope.toJson := by
  induction h with
  | nil => rfl
  | @cons envelope event envelopes events haudits _ ih =>
    obtain ⟨hkept, hrest⟩ := List.forall_mem_cons.mp hencodable
    obtain rfl := haudits.2 hkept
    rw [List.filterMap_cons, ← ih hrest]
    cases auditOf config envelope.toJson <;> rfl

/-- In every run of the gateway whose envelopes the broker has taken, in any order, and the consumer
and the indexer have worked through without a failure, if the names of the numeric fields stay apart: the
documents of the bulk calls are those of the requests. An answered request has left the document of its
own envelope if it has passed and its signal can be scored, and no document if it has not passed. -/
theorem documents_of_requests {w : State K} (hrun : d.system.Run Anything start w)
    {decimal : Text → Double K} {repr : K → String} {envelopes : List (Envelope K)}
    (htopic : envelopes.Perm (handedEnvelopes w))
    (hnames : ∀ envelope ∈ envelopes, envelope.signal.NamesApart)
    (hdenoted : ∀ envelope ∈ envelopes, DoublesDenoted decimal d.platform.showDouble envelope)
    (hscores : EventsDenoted d.engine decimal repr envelopes)
    {records : List Bytes}
    (hrecords : List.Forall₂ (KafkaRequestPublisher.IsRecord d.platform.showDouble) envelopes records)
    {tr : Events K} {s : Signal Unit}
    (htrace : Trace (consumeLoop d.engine (deserialize decimal) records) tr (.done s))
    (hall : AllSucceed tr) {batchSize : ℤ} {inputs : List (Input (Json K))}
    {state : AuditIndexer (Json K)} {bulks : List (List (Json K))}
    (hfeeds : Feeds (deserialize decimal) (auditRecords repr (published tr)) inputs)
    (hexec : AuditIndexer.exec batchSize .start inputs = some (state, bulks))
    (hstopped : state.position = .stopped) :
    bulks.flatten.Perm
      ((List.range w.threads.length).flatMap fun i => documents d (w.events i)) ∧
      ∀ i exchange, w.labels[i]? = some (.request exchange) →
        (∃ e ∈ w.events i, isAnswer e.op = true) →
        (Passed exchange (w.events i) → ∃ record, Describes exchange record ∧
          documents d (w.events i) =
            ((auditOf d.engine record.value.toJson).map AuditEvent.toJson).toList) ∧
        (¬ Passed exchange (w.events i) → documents d (w.events i) = []) := by
  have hencodable : ∀ envelope ∈ envelopes, envelope.signal.Encodable := by
    intro envelope henvelope
    obtain ⟨e, he, record, hsent, hvalue⟩ := mem_handedEnvelopes (htopic.mem_iff.mp henvelope)
    have hcarried : ZeroTrustFilter.carriedSignal e.event.op = some envelope.signal := by
      rw [op_of_sentRecord hsent, ← hvalue]
      rfl
    exact encodable_of_carried hrun he hcarried (hnames envelope henvelope)
  obtain ⟨events, haudits, hsub, hiff⟩ := published_of_records hdenoted hrecords htrace
  have hread := deserialize_of_audits hscores haudits
  have hbulks := bulks_of_published (fun event hevent => hread event (hsub.subset hevent)) hfeeds hexec
    hstopped
  constructor
  · -- the log of the run holds the envelopes, thread by thread
    have hdocuments := htopic.filterMap fun envelope =>
      (auditOf d.engine envelope.toJson).map AuditEvent.toJson
    have hthreads := perm_filterMap_log hrun.coherent.thread_lt fun event =>
      (sentRecord event).bind fun record =>
        (auditOf d.engine record.value.toJson).map AuditEvent.toJson
    rw [hbulks, hiff.mpr hall, reduceOption_of_audits haudits hencodable, List.map_filterMap]
    refine hdocuments.trans (.trans (.of_eq ?_) (hthreads.trans (.of_eq ?_)))
    · rw [handedEnvelopes, List.filterMap_map, List.filterMap_filterMap]
      rfl
    · simp only [documents, sentRecords, World.events, List.filterMap_filterMap]
  · intro i exchange hi hanswered
    obtain ⟨m', hprogress⟩ := progress hrun hi
    have hstamp : ∀ r, Event.top .stamp r ∈ w.events i → ∃ s, r = .value s := by
      intro r hr
      obtain ⟨⟨time, thread, event⟩, he, -, rfl⟩ := mem_eventsOf.mp hr
      obtain ⟨_, _, env, _, -, hreply⟩ := hrun.replies _ he
      exact ⟨env.stamp, hreply⟩
    have hpassed := sent_iff_passed_of_progress hprogress hstamp hanswered
    constructor
    · intro h
      obtain ⟨record, hsent, hdescribes⟩ := hpassed.mpr h
      refine ⟨record, hdescribes, ?_⟩
      cases hevent : auditOf d.engine record.value.toJson <;> simp [documents, hsent, hevent]
    · intro h
      rcases sentRecords_cases hprogress with hnone | hone
      · rw [documents, hnone, List.filterMap_nil]
      · exact absurd (hpassed.mp hone) h

end Requests

/-- A run in which the gateway publishes the two sample envelopes, and turns a request without a token
away. -/
def plainRegistrations : State ℚ :=
  plain.system.after
    (.spawn (.request (sampleRequest "/api/auth/register" "10.0.0.1")) ::
      callTop 1 0 sampleEnv ++ callCounters true 0 sampleEnv ++ callTop 4 0 sampleEnv ++
      .spawn (.request (sampleRequest "/api/orders" "10.0.0.3")) :: callTop 3 1 sampleEnv ++
      .spawn (.request (sampleRequest "/api/auth/register" "10.0.0.2")) ::
      callTop 1 2 sampleEnv ++ callCounters true 2 sampleEnv ++ callTop 4 2 sampleEnv) start

/-- A run in which the consumer works on their records, which the broker delivers in another order. -/
def plainDelivered : ConsumerState ℚ :=
  (plain.consumers (numbered plainEnvelopes.reverse)).after
    (.spawn [[0], [1]] :: List.replicate 4 (.call 0 [] sampleEnv)) (World.init Store.empty)

/-- The calls of that run are a finished loop over the records, none of them has failed, and both events
are published. -/
theorem plainDelivered_trace :
    Trace (consumeLoop plain.engine (deserialize plainDecimal)
      (plainEnvelopes.reverse.map plainRecord)) (plainDelivered.log.map Entry.event)
      (.done (.value ())) ∧ AllSucceed (plainDelivered.log.map Entry.event) ∧
      (published (plainDelivered.log.map Entry.event)).length = 2 := by
  obtain ⟨hrun, hrecords, hok, hlength⟩ :
      (plain.consumers (numbered plainEnvelopes.reverse)).Run (fun _ => True)
        (World.init Store.empty) plainDelivered ∧
        endedRecords plainDelivered = some ([[0], [1]], .value ()) ∧
        (plainDelivered.log.map Entry.event).all (fun e => !e.reply.isError) = true ∧
        (published (plainDelivered.log.map Entry.event)).length = 2 :=
    System.Run.after_and (by decide +kernel) fun _ _ => trivial
  refine ⟨?_, allSucceed_iff_all.mpr hok, hlength⟩
  have hloop := consumeLoop_numbered (doublesDenoted_plainEnvelope "10.0.0.2")
    (doublesDenoted_plainEnvelope "10.0.0.1")
  have htrace := (Finished.events (ended_of_endedRecords hrecords) hrun).2
  exact hloop ▸ htrace

/-- The documents of the two registrations are indexed, and the request that was turned away has none. -/
theorem plainRegistrations_indexed : ∃ first second : AuditEvent ℚ,
    [[first.toJson, second.toJson]].flatten.Perm
      ((List.range plainRegistrations.threads.length).flatMap fun i =>
        documents plain (plainRegistrations.events i)) ∧
      documents plain (plainRegistrations.events 1) = [] := by
  obtain ⟨htrace, hall, hlength⟩ := plainDelivered_trace
  obtain ⟨first, second, hpublished⟩ := List.length_eq_two.mp hlength
  obtain ⟨hrun, hhanded, hrejected⟩ : plain.system.Run Anything start plainRegistrations ∧
      handedEnvelopes plainRegistrations = plainEnvelopes ∧
      (plainRegistrations.events 1).any (fun e => isAnswer e.op) = true :=
    System.Run.after_and (by decide +kernel) fun _ _ => trivial
  have hscores : EventsDenoted plain.engine plainDecimal plainRepr plainEnvelopes.reverse :=
    fun envelope henvelope => eventsDenoted_plainEnvelopes envelope (List.mem_reverse.mp henvelope)
  have hdenoted : ∀ envelope ∈ plainEnvelopes.reverse, DoublesDenoted plainDecimal plainShow envelope :=
    fun envelope henvelope => doublesDenoted_plainEnvelopes envelope (List.mem_reverse.mp henvelope)
  have hrecords := List.forall₂_reverse_iff.mpr isRecord_plainRecords
  rw [← List.map_reverse] at hrecords
  obtain ⟨events, haudits, hsub, -⟩ := published_of_records hdenoted hrecords htrace
  have hread := fun event (hevent : event ∈ published (plainDelivered.log.map Entry.event)) =>
    deserialize_of_audits hscores haudits event (hsub.subset hevent)
  have hfeeds : Feeds (deserialize plainDecimal)
      (auditRecords plainRepr (published (plainDelivered.log.map Entry.event)))
      [.message first.toJson, .message second.toJson, .raised, .bulk .indexed] := by
    rw [hpublished] at hread ⊢
    exact .message (hread first (by simp)) (.message (hread second (by simp))
      (.shutdown (.bulk (by simp) (.nil []))))
  have hnames : ∀ envelope ∈ plainEnvelopes.reverse, envelope.signal.NamesApart :=
    fun envelope henvelope => (encodable_plainEnvelopes envelope (List.mem_reverse.mp henvelope)).names
  obtain ⟨hdocuments, hrequests⟩ := documents_of_requests plain hrun
    (hhanded ▸ List.reverse_perm plainEnvelopes) hnames hdenoted hscores hrecords htrace hall hfeeds
    (show AuditIndexer.exec 200 .start _ =
      some (⟨.stopped, []⟩, [[first.toJson, second.toJson]]) from rfl) rfl
  refine ⟨first, second, hdocuments, (hrequests 1 _ rfl ?_).2 ?_⟩
  · exact List.any_eq_true.mp hrejected
  · rintro ⟨hpublic | ⟨token, c, htoken, -⟩, -⟩
    · exact absurd hpublic (by decide)
    · cases htoken

end ApiFirewall.Guarantees
