import ApiFirewall.Backend.OrderService
import ApiFirewall.Engine.ConsumeLoop
import ApiFirewall.Gateway.RecordText

/-!
# The texts of records as the engine reads and writes them

The value of a record is deserialized by decoding it strictly and reading the whole text as JSON. An
audit event is serialized as JSON in ASCII. What a message asks for depends only on its members by
name, and on its signal only through the score.
-/

namespace ApiFirewall

open ApiFirewall.Wire

variable {K : Type}

/-- An audit event as JSON. -/
def AuditEvent.toJson (event : AuditEvent K) : Json K :=
  .obj
    [("request_id", event.requestId),
     ("client_ip", event.clientIp),
     ("endpoint", event.endpoint),
     ("method", event.method),
     ("timestamp", event.timestamp),
     ("isolation_score", .real (.finite event.isolationScore)),
     ("xgboost_score", .real (.finite event.xgboostScore)),
     ("final_score", .real (.finite event.finalScore)),
     ("decision", .str event.decision),
     ("reason", .str event.reason)]

end ApiFirewall

namespace ApiFirewall.Engine.KafkaConsumer

open ApiFirewall.Wire ApiFirewall.Wire.JsonText ApiFirewall.Reactive

section Texts

variable {K : Type}

/-- Python's JSON, with its constants for doubles that are not finite. -/
def dialect (decimal : Text → Double K) : Dialect K := ⟨true, decimal⟩

/-- The value of a record. -/
def deserialize (decimal : Text → Double K) (record : Gateway.Bytes) : Option (Json K) :=
  (Backend.decodeUtf8Strict record).bind fun text => readDocument (dialect decimal) text

/-- The record of a value, given the texts of finite doubles. -/
def serialize (repr : K → String) (value : Json K) : Gateway.Bytes :=
  Gateway.encodeText (Style.ascii.write (withConstants repr) value)

/-- The value of an encoded text is what the text denotes, with question marks for its surrogates. -/
theorem deserialize_encodeText (decimal : Text → Double K) (text : Text) :
    deserialize decimal (Gateway.encodeText text) =
      readDocument (dialect decimal) (text.map .encoded) := by
  have hdecode : Backend.decodeUtf8Strict (Gateway.encodeText text) = some text.encodable := by
    rw [Backend.decodeUtf8Strict_eq_some_iff, Text.encodable, String.toList_ofList, List.flatMap_map]
    rfl
  rw [deserialize, hdecode, Option.bind_some, Text.ofString_encodable]

/-- A lenient encoder keeps the texts of doubles. -/
theorem encoded_withConstants (repr : K → String) (x : Double K) :
    (withConstants repr x).map .encoded = withConstants repr x := by
  cases x with
  | finite y => exact Text.encoded_ofString (repr y)
  | posInf => rfl
  | negInf => rfl
  | nan => rfl

/-- A serialized value is deserialized, if its finite doubles are denoted by their texts. -/
theorem deserialize_serialize {decimal : Text → Double K} {repr : K → String} {value : Json K}
    (h : Throughout (fun x => ∀ y, x = .finite y → Denoted (dialect decimal) (withConstants repr) x)
      Text.Unpaired value) : deserialize decimal (serialize repr value) = some value := by
  rw [serialize, deserialize_encodeText, Style.encoded_ascii.write (encoded_withConstants repr)]
  exact Style.readDocument_write (fun x hx => legible_withConstants rfl hx) h

/-- The doubles of an audit event are those of its members and its three scores. -/
theorem throughout_auditEvent {P : Double K → Prop} {event : AuditEvent K}
    (hmembers : ∀ v ∈ [event.requestId, event.clientIp, event.endpoint, event.method,
      event.timestamp], Throughout P Text.Unpaired v)
    (hscores : ∀ x ∈ [event.isolationScore, event.xgboostScore, event.finalScore], P (.finite x)) :
    Throughout P Text.Unpaired event.toJson := by
  refine .obj (fun m hm => ?_) fun m hm => ?_
  · simp only [List.mem_cons, List.not_mem_nil, or_false] at hm
    rcases hm with rfl | rfl | rfl | rfl | rfl | rfl | rfl | rfl | rfl | rfl <;>
      exact Text.unpaired_ofString _
  simp only [List.mem_cons, List.not_mem_nil, or_false] at hm
  rcases hm with rfl | rfl | rfl | rfl | rfl | rfl | rfl | rfl | rfl | rfl
  · exact hmembers _ (by simp)
  · exact hmembers _ (by simp)
  · exact hmembers _ (by simp)
  · exact hmembers _ (by simp)
  · exact hmembers _ (by simp)
  · exact .real (hscores _ (by simp))
  · exact .real (hscores _ (by simp))
  · exact .real (hscores _ (by simp))
  · exact .str (Text.unpaired_ofString _)
  · exact .str (Text.unpaired_ofString _)

end Texts

section Effects

variable {K : Type} [Field K] [LinearOrder K] [FloorRing K] (config : EngineConfig K)

/-- Messages ask for the same if they have the same members, up to signals that score alike. -/
theorem asks_congr {members members' : List (Text × Json K)}
    (hnames : ∀ name, name ≠ "signal" → member members name = member members' name)
    (hsignal : (member members "signal").bind (scoreSignal config) =
      (member members' "signal").bind (scoreSignal config)) :
    auditOf config (.obj members) = auditOf config (.obj members') ∧
      blockOf config (.obj members) = blockOf config (.obj members') := by
  have hclient : clientIpOf members = clientIpOf members' := by
    rw [clientIpOf, clientIpOf, hnames _ (by decide)]
  have haudit : auditEvent members = auditEvent members' := by
    funext result
    simp only [auditEvent, getMember, hclient, hnames "request_id" (by decide),
      hnames "endpoint" (by decide), hnames "method" (by decide), hnames "timestamp" (by decide)]
  unfold auditOf blockOf scoredMessage
  dsimp only
  rw [hsignal, hclient]
  cases ((member members' "signal").bind (scoreSignal config)).filter fun result =>
      Encodable config (clientIpOf members') result with
  | none => exact ⟨rfl, rfl⟩
  | some result =>
    simp only [Option.map_some, Option.bind_some]
    rw [hclient, haudit]
    exact ⟨rfl, rfl⟩

variable {config} {deserialize : Gateway.Bytes → Option (Json K)}

/-- The loop ends with its last record, if all of them can be deserialized. -/
theorem consumeLoop_completes {records : List Gateway.Bytes}
    (hrecords : ∀ record ∈ records, (deserialize record).isSome = true)
    {tr : List (Event (Op K) Res)} {s : Signal Unit}
    (h : Trace (consumeLoop config deserialize records) tr (.done s)) : s = .value () := by
  induction records generalizing tr with
  | nil => exact Mono.done.inj h.of_done.2
  | cons record rest ih =>
    unfold consumeLoop at h
    split at h
    · rename_i hmalformed
      have hsome := hrecords record (List.mem_cons_self ..)
      simp [hmalformed] at hsome
    · rename_i payload hpayload
      obtain ⟨part, tr₂, s₁, rfl, hpart, htr₂⟩ := h.ended_onSignal
      have hrest := fun record hrecord => hrecords record (List.mem_cons_of_mem _ hrecord)
      cases s₁ with
      | error => exact absurd rfl (processMessage_attempted config hpart).1
      | value a => exact ih hrest htr₂
      | empty => exact ih hrest htr₂

end Effects

end ApiFirewall.Engine.KafkaConsumer
