import ApiFirewall.ConsumerRuns
import ApiFirewall.Engine.RecordText
import ApiFirewall.Guarantees.DeliveredSignals

/-!
# Telemetry as text

The record of an envelope is a text, with the members of its maps in an order that nobody has fixed and
with question marks for the surrogates in the names of its numeric fields. The consumer reads every such
text and works on it as on the envelope itself, as long as different names stay different. A topic that
only the gateway writes to never ends the consumer's loop, whatever the names are.
-/

namespace ApiFirewall.Guarantees

open ApiFirewall.Wire ApiFirewall.Wire.JsonText ApiFirewall.Gateway ApiFirewall.Engine
open ApiFirewall.Engine.KafkaConsumer ApiFirewall.KeyValue ApiFirewall.Reactive

variable {K : Type} [Field K] [LinearOrder K] [FloorRing K] (config : EngineConfig K)

omit [Field K] [LinearOrder K] [FloorRing K] in
/-- The members that an envelope has once they are encoded have distinct names. -/
theorem nodup_encoded_members (envelope : Envelope K) :
    ((envelope.members.map fun m => ((m.1.encodable : Text), m.2.encodable)).map Prod.fst).Nodup := by
  simp [Envelope.members]

/-- An object that the mapper may set for an envelope is received as the envelope is in some order of its
maps: both ask for the same. -/
theorem asks_of_sets {envelope : Envelope K} {value : Json K} (h : envelope.Sets value) :
    ∃ order : MapOrder K, auditOf config value.encodable = auditOf config (envelope.received order) ∧
      blockOf config value.encodable = blockOf config (envelope.received order) := by
  classical
  obtain ⟨hsignal, hmembers⟩ := h
  rename_i signal members
  let order : MapOrder K :=
    { apply := fun signal' => if signal' = envelope.signal then signal else signal'
      reordered := by
        intro signal'
        split
        · rename_i heq
          exact heq ▸ hsignal
        · exact .refl signal' }
  have horder : order.apply envelope.signal = signal := if_pos rfl
  refine ⟨order, ?_⟩
  rw [Envelope.received, horder, Envelope.toJson_eq, Json.encodable_obj, Json.encodable_obj]
  have hmember := member_of_perm (nodup_encoded_members { envelope with signal }) (hmembers.map _)
  exact asks_congr config (fun name _ => by rw [hmember]) (by rw [hmember])

/-- An envelope asks as it is received for what it asks for itself, if its names stay apart. -/
theorem asks_received (order : MapOrder K) {envelope : Envelope K} (h : envelope.signal.Encodable) :
    auditOf config (envelope.received order) = auditOf config envelope.toJson ∧
      blockOf config (envelope.received order) = blockOf config envelope.toJson := by
  rw [Envelope.received_eq, Envelope.toJson]
  apply asks_congr
  · intro name hname
    have hne : Text.ofString name ≠ Text.ofString "signal" := fun heq => hname (Text.ofString_inj.mp heq)
    exact (member_concat_of_ne (envelope.members.take 5) (envelope.signal.received order) hne).trans
      (member_concat_of_ne (envelope.members.take 5) envelope.signal.toJson hne).symm
  · exact scoreSignal_received config order h

omit [Field K] [LinearOrder K] [FloorRing K] in
/-- The finite doubles of an envelope are denoted by the texts that the mapper sets for them. -/
def DoublesDenoted (decimal : Text → Double K) (showDouble : Double K → String)
    (envelope : Envelope K) : Prop :=
  ∀ x ∈ envelope.signal.doubles, ∀ y, x = .finite y →
    Denoted (dialect decimal) (fun x => showDouble x) x

variable {config} {decimal : Text → Double K} {showDouble : Double K → String}

/-- A message asks for what an envelope asks for as it is received, in some order of its maps. -/
def Delivers (config : EngineConfig K) (envelope : Envelope K) (message : Json K) : Prop :=
  ∃ order : MapOrder K, auditOf config message = auditOf config (envelope.received order) ∧
    effectsOf config message = effectsOf config (envelope.received order)

/-- It asks for what the envelope itself asks for, if the names of its signal stay apart. -/
theorem Delivers.kept {envelope : Envelope K} {message : Json K}
    (h : Delivers config envelope message) (hencodable : envelope.signal.Encodable) :
    auditOf config message = auditOf config envelope.toJson ∧
      effectsOf config message = effectsOf config envelope.toJson := by
  obtain ⟨order, haudit, heffects⟩ := h
  obtain ⟨hkept, hblock⟩ := asks_received config order hencodable
  rw [haudit, heffects, effectsOf, hkept, hblock, effectsOf]
  exact ⟨rfl, rfl⟩

omit [Field K] [LinearOrder K] [FloorRing K] in
/-- A written value is read back as it has been encoded. -/
theorem deserialize_written {style : Style} (hstyle : style.LeavesSurrogates) {envelope : Envelope K}
    (hdenoted : DoublesDenoted decimal showDouble envelope) {value : Json K}
    (hsets : envelope.Sets value) :
    deserialize decimal (encodeText (style.write (fun x => showDouble x) value)) =
      some value.encodable := by
  rw [deserialize_encodeText, hstyle.write fun x => Text.encoded_ofString (showDouble x)]
  have hvalue := (hsets.throughout hdenoted).encodable
  exact Style.readDocument_write (fun x hx => Denoted.legible hx) hvalue

/-- Every record of an envelope is read as a message that delivers the envelope. -/
theorem message_of_record (config : EngineConfig K) {envelope : Envelope K} {record : Bytes}
    (hdenoted : DoublesDenoted decimal showDouble envelope)
    (h : KafkaRequestPublisher.IsRecord showDouble envelope record) :
    ∃ message, deserialize decimal record = some message ∧ Delivers config envelope message := by
  obtain ⟨style, value, hstyle, hsets, rfl⟩ := h
  obtain ⟨order, haudit, hblock⟩ := asks_of_sets config hsets
  refine ⟨value.encodable, deserialize_written hstyle hdenoted hsets, order, haudit, ?_⟩
  rw [effectsOf, haudit, hblock, effectsOf]

/-- On a topic that only the gateway writes to, the records are read as messages that deliver the
envelopes, one after the other. -/
theorem messages_of_records (config : EngineConfig K) {envelopes : List (Envelope K)}
    {records : List Bytes}
    (hdenoted : ∀ envelope ∈ envelopes, DoublesDenoted decimal showDouble envelope)
    (h : List.Forall₂ (KafkaRequestPublisher.IsRecord showDouble) envelopes records) :
    (∀ record ∈ records, (deserialize decimal record).isSome = true) ∧
      List.Forall₂ (Delivers config) envelopes (consumed (deserialize decimal) records) := by
  induction h with
  | nil => exact ⟨by simp, .nil⟩
  | @cons envelope record envelopes records hrecord _ ih =>
    rw [List.forall_mem_cons] at hdenoted
    obtain ⟨message, hmessage, hdelivers⟩ := message_of_record config hdenoted.1 hrecord
    obtain ⟨hread, hmessages⟩ := ih hdenoted.2
    rw [consumed, hmessage, List.forall_mem_cons]
    exact ⟨⟨by rw [hmessage]; rfl, hread⟩, .cons hdelivers hmessages⟩

/-- Whatever order the members of its maps take, every record that the gateway writes is worked on as its
envelope is received, and as the envelope itself if the names of its signal stay apart; and a topic with
no other records never ends the loop before its last record. -/
theorem telemetry_worked_on {envelopes : List (Envelope K)} {records : List Bytes}
    (hdenoted : ∀ envelope ∈ envelopes, DoublesDenoted decimal showDouble envelope)
    (hrecords : List.Forall₂ (KafkaRequestPublisher.IsRecord showDouble) envelopes records)
    {tr : Events K} {s : Signal Unit}
    (h : Trace (consumeLoop config (deserialize decimal) records) tr (.done s)) :
    s = .value () ∧ ∃ parts : List (Events K), tr = parts.flatten ∧
      List.Forall₂ (fun envelope part =>
        (∃ order, Attempted (effectsOf config (envelope.received order)) part) ∧
          (envelope.signal.Encodable → Attempted (effectsOf config envelope.toJson) part))
        envelopes parts := by
  obtain ⟨hread, hdelivers⟩ := messages_of_records config hdenoted hrecords
  obtain ⟨parts, htr, hparts⟩ := consumeLoop_trace config _ h
  refine ⟨consumeLoop_completes hread h, parts, htr, ?_⟩
  refine (hdelivers.comp hparts).imp ?_
  rintro envelope part ⟨message, hdelivers, hattempted⟩
  obtain ⟨order, -, heffects⟩ := id hdelivers
  exact ⟨⟨order, heffects ▸ hattempted⟩, fun hkept => (hdelivers.kept hkept).2 ▸ hattempted⟩

open Deployment

/-- The texts of the doubles of a first request without a token and without a body. -/
def plainShow (x : Double ℚ) : String :=
  if x = .finite 0 then "0.0" else if x = .finite 1 then "1.0" else "2.0"

/-- The doubles of those texts. -/
def plainDecimal (text : Text) : Double ℚ :=
  if text = ("0.0" : String) then .finite 0
  else if text = ("1.0" : String) then .finite 1 else .finite 2

/-- The sample deployment with those texts. -/
def plain : Deployment ℚ :=
  { sample with platform := { sample.platform with showDouble := plainShow } }

/-- Those texts denote those doubles. -/
theorem denoted_plain {x : Double ℚ} (h : x = .finite 0 ∨ x = .finite 1 ∨ x = .finite 2) :
    Denoted (dialect plainDecimal) (fun x => plainShow x) x := by
  have hfraction : IsFraction ['.', '0'] := ⟨['0'], rfl, by decide, List.forall_mem_singleton.mpr rfl⟩
  rcases h with rfl | rfl | rfl
  · exact ⟨⟨[], 0, ['.', '0'], [], rfl, .inl rfl, .inr hfraction, .inl rfl, by decide⟩, rfl⟩
  · exact ⟨⟨[], 1, ['.', '0'], [], rfl, .inl rfl, .inr hfraction, .inl rfl, by decide⟩, rfl⟩
  · exact ⟨⟨[], 2, ['.', '0'], [], rfl, .inl rfl, .inr hfraction, .inl rfl, by decide⟩, rfl⟩

/-- The envelope of the first request of a client. -/
def plainEnvelope (address : String) : Envelope ℚ where
  requestId := "r-1"
  clientIp := address
  method := "GET"
  endpoint := "/api/auth/register"
  timestamp := "1970-01-01T00:00:00Z"
  signal := ZeroTrustFilter.buildSignal plain.platform plain.properties 1 2 1 sampleEnv.clocks
    (sampleRequest "/api/auth/register" address) none "/api/auth/register" ""

/-- The doubles of such envelopes are denoted. -/
theorem doublesDenoted_plainEnvelope (address : String) :
    DoublesDenoted plainDecimal plainShow (plainEnvelope address) := by
  have hdoubles : ∀ x ∈ (plainEnvelope "").signal.doubles,
      x = .finite 0 ∨ x = .finite 1 ∨ x = .finite 2 := by decide +kernel
  have hsame : (plainEnvelope address).signal.doubles = (plainEnvelope "").signal.doubles := rfl
  exact fun x hx y _ => denoted_plain (hdoubles x (hsame ▸ hx))

/-- The envelopes of the first requests of two clients. -/
def plainEnvelopes : List (Envelope ℚ) := [plainEnvelope "10.0.0.1", plainEnvelope "10.0.0.2"]

/-- Their doubles are denoted. -/
theorem doublesDenoted_plainEnvelopes :
    ∀ envelope ∈ plainEnvelopes, DoublesDenoted plainDecimal plainShow envelope :=
  List.forall_mem_cons.mpr ⟨doublesDenoted_plainEnvelope _,
    List.forall_mem_singleton.mpr (doublesDenoted_plainEnvelope _)⟩

/-- A record of an envelope, with the members in the order of the envelope. -/
def plainRecord (envelope : Envelope ℚ) : Bytes :=
  encodeText (Style.compact.write (fun x => plainShow x) envelope.toJson)

/-- It is a record of the envelope. -/
theorem isRecord_plainRecord (envelope : Envelope ℚ) :
    KafkaRequestPublisher.IsRecord plainShow envelope (plainRecord envelope) :=
  ⟨Style.compact, _, Style.leavesSurrogates_sparing _, .of_order (.refl _) (.refl _), rfl⟩

/-- The records of the two envelopes. -/
theorem isRecord_plainRecords : List.Forall₂ (KafkaRequestPublisher.IsRecord plainShow) plainEnvelopes
    (plainEnvelopes.map plainRecord) :=
  .cons (isRecord_plainRecord _) (.cons (isRecord_plainRecord _) .nil)

/-- Records that are numbers, and are read as the envelopes with those numbers are. -/
def numbered (envelopes : List (Envelope ℚ)) (record : Bytes) : Option (Json ℚ) :=
  record.head?.bind fun n => envelopes[n.toNat]?.map fun envelope => envelope.toJson.encodable

/-- The consumer works on the records of two envelopes as it works on two numbers. -/
theorem consumeLoop_numbered {first second : Envelope ℚ}
    (hfirst : DoublesDenoted plainDecimal plainShow first)
    (hsecond : DoublesDenoted plainDecimal plainShow second) :
    consumeLoop plain.engine (numbered [first, second]) [[0], [1]] =
      consumeLoop plain.engine (deserialize plainDecimal) ([first, second].map plainRecord) := by
  have hread : ∀ {envelope}, DoublesDenoted plainDecimal plainShow envelope →
      some envelope.toJson.encodable = deserialize plainDecimal (plainRecord envelope) :=
    fun hdenoted => (deserialize_written (Style.leavesSurrogates_sparing _) hdenoted
      (.of_order (.refl _) (.refl _))).symm
  exact consumeLoop_congr _ (.cons (hread hfirst) (.cons (hread hsecond) .nil))

/-- A run in which the consumer works on two records. The block of the first client is refused, so its
event is not published. -/
def plainConsumed : ConsumerState ℚ :=
  (plain.consumers (numbered plainEnvelopes)).after
    [.spawn [[0], [1]], .call 0 [] { sampleEnv with delivery := .rejected },
      .call 0 [] sampleEnv, .call 0 [] sampleEnv] (World.init Store.empty)

/-- The calls of that run are a finished loop over the records of the envelopes, and the first one has
failed. -/
theorem plainConsumed_trace :
    Trace (consumeLoop plain.engine (deserialize plainDecimal) (plainEnvelopes.map plainRecord))
      (plainConsumed.log.map Entry.event) (.done (.value ())) ∧
      ¬ AllSucceed (plainConsumed.log.map Entry.event) := by
  obtain ⟨hrun, hrecords, hfailed⟩ :
      (plain.consumers (numbered plainEnvelopes)).Run (fun _ => True) (World.init Store.empty)
        plainConsumed ∧
        endedRecords plainConsumed = some ([[0], [1]], .value ()) ∧
        ¬ (plainConsumed.log.map Entry.event).all (fun e => !e.reply.isError) = true :=
    System.Run.after_and (by decide +kernel) fun _ _ => trivial
  refine ⟨?_, fun hall => hfailed (allSucceed_iff_all.mp hall)⟩
  rw [plainEnvelopes, ← consumeLoop_numbered (doublesDenoted_plainEnvelope _)
    (doublesDenoted_plainEnvelope _)]
  exact (Finished.events (ended_of_endedRecords hrecords) hrun).2

/-- The calls of that run are those that the envelopes ask for, up to the one that has failed. -/
theorem plainConsumed_worked_on : ∃ parts : List (Events ℚ),
    plainConsumed.log.map Entry.event = parts.flatten ∧
      List.Forall₂ (fun envelope part =>
        (∃ order, Attempted (effectsOf plain.engine (envelope.received order)) part) ∧
          (envelope.signal.Encodable → Attempted (effectsOf plain.engine envelope.toJson) part))
        plainEnvelopes parts :=
  (telemetry_worked_on doublesDenoted_plainEnvelopes isRecord_plainRecords plainConsumed_trace.1).2

end ApiFirewall.Guarantees
