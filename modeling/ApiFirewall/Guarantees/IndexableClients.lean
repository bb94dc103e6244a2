import ApiFirewall.Engine.MessageEffects
import ApiFirewall.Guarantees.BlockWriters
import ApiFirewall.Indexer.IpLiteral

/-!
# Clients that the index accepts

The index maps the client of an audit event to an address. The client is what the gateway made of
a header that anybody can send, or of the address of the peer, or the text that stands for an
unknown client; the consumer copies it into the event. So an event can be indexed exactly if the
request named its client by the literal of an address.
-/

namespace ApiFirewall.Guarantees

open ApiFirewall.Wire ApiFirewall.Gateway ApiFirewall.Gateway.ZeroTrustFilter
open ApiFirewall.Engine ApiFirewall.Engine.KafkaConsumer ApiFirewall.Indexer
open ApiFirewall.KeyValue ApiFirewall.Reactive Deployment

/-- The event fits the mapping of its client. -/
def Indexable {K : Type} (event : AuditEvent K) : Prop :=
  ∃ s : String, event.clientIp = .str s ∧ isIpLiteral s = true

/-- There is a peer, and its address is written as a literal. -/
def PeerIsLiteral (exchange : Exchange) : Prop :=
  ∃ address, exchange.remoteAddress = some address ∧ isIpLiteral address = true

/-- The forwarded text before the first comma is a literal, or nothing is forwarded and the peer is
one. -/
def ClientIsLiteral (exchange : Exchange) : Prop :=
  match exchange.getFirst "X-Forwarded-For" with
  | some forwarded =>
    if isBlank forwarded then PeerIsLiteral exchange
    else isIpLiteral (trim (.ofList (forwarded.toList.takeWhile (· ≠ ',')))) = true
  | none => PeerIsLiteral exchange

/-- The client of a request is a literal exactly if the request names it by one. -/
theorem literal_iff_of_resolved {exchange : Exchange} {c : String}
    (h : resolveClientIp exchange = some c) : isIpLiteral c = true ↔ ClientIsLiteral exchange := by
  have hunknown : isIpLiteral "unknown" = false := by decide
  have hremote : isIpLiteral (exchange.remoteAddress.getD "unknown") = true ↔
      PeerIsLiteral exchange := by
    unfold PeerIsLiteral
    cases exchange.remoteAddress <;> simp [hunknown]
  unfold resolveClientIp at h
  unfold ClientIsLiteral
  cases hforwarded : exchange.getFirst "X-Forwarded-For" with
  | none =>
    rw [hforwarded] at h
    obtain rfl := Option.some.inj h
    exact hremote
  | some forwarded =>
    rw [hforwarded] at h
    by_cases hblank : isBlank forwarded = true
    · obtain rfl : exchange.remoteAddress.getD "unknown" = c := by simpa [hblank] using h
      simpa [hblank] using hremote
    · obtain ⟨first, hfirst, rfl⟩ : ∃ first, (split ',' forwarded)[0]? = some first ∧
          trim first = c := by simpa [hblank] using h
      simp only [hblank, head_split hfirst]
      rfl

variable {K : Type} [Field K] [LinearOrder K] [FloorRing K] {d : Deployment K} {w : State K}

/-- The event that a thread publishes is the one that its message asks for. -/
theorem audit_of_message (hrun : d.system.Run Anything start w) {k source : ℕ} {payload : Json K}
    (hk : w.labels[k]? = some (.message source payload)) {path : List Branch} {topic : String}
    {event : AuditEvent K} {reply : Signal Unit}
    (hevent : ⟨path, .sendAudit topic event, reply⟩ ∈ w.events k) :
    auditOf d.engine payload = some event := by
  obtain ⟨m, hm⟩ := World.exists_thread hk
  obtain ⟨m', htr, -⟩ := hrun.coherent.trace k _ m hm
  have hop := (htr.emits (processMessage_emits_effects d.engine payload)).1 _ hevent
  simp only [effectsOf, List.mem_append, Option.mem_toList,
    Option.map_eq_some_iff] at hop
  rcases hop with ⟨block, -, hwrite⟩ | ⟨event', haudit, hsend⟩
  · simp [blockWrite] at hwrite
  · obtain ⟨-, rfl⟩ := Op.sendAudit.inj hsend
    exact haudit

/-- The consumer has sent the event for a message that carries the envelope of a request. -/
def AuditedBy (w : State K) (i : ℕ) (event : AuditEvent K) : Prop :=
  ∃ source e k payload path topic reply, w.log[source]? = some e ∧ e.thread = i ∧
    w.labels[k]? = some (.message source payload) ∧
    ⟨path, .sendAudit topic event, reply⟩ ∈ w.events k

/-- The client of an event is the client of the request whose envelope it was derived from. -/
theorem client_of_audited (hrun : d.system.Run Anything start w) {i : ℕ} {exchange : Exchange}
    (hi : w.labels[i]? = some (.request exchange)) {event : AuditEvent K}
    (h : AuditedBy w i event) :
    ∃ c : String, resolveClientIp exchange = some c ∧ event.clientIp = .str c := by
  obtain ⟨source, e, k, payload, path, topic, reply, he, rfl, hk, hevent⟩ := h
  obtain ⟨e', record, he', hrecord, rfl⟩ := source_of_message hrun hk
  obtain rfl := Option.some.inj (he.symm.trans he')
  refine ⟨record.value.clientIp,
    clientIp_of_sent hrun hi (List.mem_of_getElem? he) rfl hrecord, ?_⟩
  obtain ⟨⟨members, result⟩, hscored, rfl⟩ :=
    Option.map_eq_some_iff.mp (audit_of_message hrun hk hevent)
  obtain ⟨members', hmembers, hclient, -⟩ := received_members d.mapOrder record.value
  obtain rfl := Json.obj.inj (hmembers.symm.trans (scoredMessage_eq_some.mp hscored).1)
  exact hclient

/-- In every run, an audit event that is derived from the envelope of a request can be indexed
exactly if the request names its client by the literal of an address. -/
theorem indexable_iff (hrun : d.system.Run Anything start w) {i : ℕ} {exchange : Exchange}
    (hi : w.labels[i]? = some (.request exchange)) {event : AuditEvent K}
    (h : AuditedBy w i event) : Indexable event ↔ ClientIsLiteral exchange := by
  obtain ⟨c, hresolved, hclient⟩ := client_of_audited hrun hi h
  rw [← literal_iff_of_resolved hresolved]
  unfold Indexable
  simp [hclient]

omit [Field K] [LinearOrder K] [FloorRing K] in
/-- What was published for a message that is finished was sent for it. -/
theorem audited_of_published {k i : ℕ} {record : ProducerRecord K} (h : Consumed w k i record)
    {event : AuditEvent K} (he : event ∈ published (w.events k)) : AuditedBy w i event := by
  obtain ⟨source, e, payload, m, hsource, hthread, -, hk, -⟩ := h
  obtain ⟨call, hcall, hpublished⟩ := List.mem_filterMap.mp he
  unfold publishedEvent at hpublished
  split at hpublished
  · rename_i path topic event' reply
    split at hpublished
    · simp at hpublished
    · obtain rfl := Option.some.inj hpublished
      exact ⟨source, e, k, payload, path, topic, reply, hsource, hthread,
        by simp [World.labels, hk], hcall⟩
  · simp at hpublished

/-- The consumer has sent an event for the client of a registration, which can be indexed. -/
theorem registration_indexable :
    ∃ event, AuditedBy consumedRegistration 0 event ∧ Indexable event := by
  obtain ⟨hrun, hworked, hrequest⟩ := consumedRegistration_run
  obtain ⟨record, result, hconsumed, -, -, -⟩ := consumed_of_consumedAs hworked
  obtain ⟨event, hevent⟩ := List.exists_mem_of_length_pos
    (show 0 < (published (consumedRegistration.events 1)).length by decide +kernel)
  have haudited := audited_of_published hconsumed hevent
  refine ⟨event, haudited, (indexable_iff (hrun.mono fun _ _ => trivial)
    (requestAt_eq_some.mp hrequest) haudited).mpr ?_⟩
  exact ⟨"10.0.0.1", rfl, by decide +kernel⟩

/-- Every audit event can be indexed, whatever the requests are. -/
def AuditsIndexable (d : Deployment K) : Prop :=
  ∀ w, d.system.Run Anything start w → ∀ (i : ℕ) (exchange : Exchange),
    w.labels[i]? = some (.request exchange) → ∀ event, AuditedBy w i event → Indexable event

/-- The event of a request that forwards nothing and has no peer address cannot be indexed. -/
theorem unknown_not_indexable : ¬ AuditsIndexable sample := by
  intro hall
  obtain ⟨hanswered, hworked, hrequest, -⟩ := unknownRegistration_run
  obtain ⟨record, result, hconsumed, -, -, -⟩ := consumed_of_consumedAs hworked
  obtain ⟨event, hevent⟩ := List.exists_mem_of_length_pos
    (show 0 < (published (unknownRegistration.events 1)).length by decide +kernel)
  have hrun : sample.system.Run Anything start unknownRegistration :=
    hanswered.mono fun _ _ => trivial
  have hi := requestAt_eq_some.mp hrequest
  have haudited := audited_of_published hconsumed hevent
  obtain ⟨c, hresolved, hclient⟩ := client_of_audited hrun hi haudited
  obtain ⟨s, hs, hliteral⟩ := hall _ hrun 0 unknownRequest hi event haudited
  obtain rfl : "unknown" = c := Option.some.inj hresolved
  obtain rfl : "unknown" = s := Text.ofString_inj.mp (Json.str.inj (hclient.symm.trans hs))
  exact absurd hliteral (by decide)

end ApiFirewall.Guarantees
