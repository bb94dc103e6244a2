import ApiFirewall.Engine.KafkaConsumer
import ApiFirewall.Reactive.Attempts

/-!
# The loop over the request stream

The consumer works on one record after the other. The value of a record is deserialized while the
record is fetched, outside the handler that skips a message, so a record that cannot be
deserialized ends the loop. The work on a message that can be deserialized attempts at most two
calls, the write to the blocklist and then the audit event, and never ends the loop.
-/

namespace ApiFirewall.Engine.KafkaConsumer

open ApiFirewall.Wire ApiFirewall.KeyValue ApiFirewall.Reactive

variable {K : Type} [Field K] [LinearOrder K] [FloorRing K] (config : EngineConfig K)

/-- The client of a message, where it is to be blocked, can be part of a key. -/
def Encodable (clientIp : Json K) (result : ScoreResult K) : Prop :=
  AsksBlock clientIp result → (formatMember config clientIp).toString?.isSome = true

instance (clientIp : Json K) (result : ScoreResult K) :
    Decidable (Encodable config clientIp result) :=
  inferInstanceAs (Decidable (AsksBlock clientIp result → _))

/-- The members of a message whose signal validates and scores, and the result. A client that is to be
blocked and cannot be encoded raises an exception like a signal that does not validate. -/
def scoredMessage : Json K → Option (List (Text × Json K) × ScoreResult K)
  | .obj members => (((member members "signal").bind (scoreSignal config)).filter
      fun result => Encodable config (clientIpOf members) result).map (members, ·)
  | _ => none

/-- The audit event of a message. -/
def auditOf (payload : Json K) : Option (AuditEvent K) :=
  (scoredMessage config payload).map fun m => auditEvent m.1 m.2

/-- The client that a message puts on the blocklist, with the reason. -/
def blockOf (payload : Json K) : Option (String × String) :=
  (scoredMessage config payload).bind fun m =>
    if AsksBlock (clientIpOf m.1) m.2 then
      (formatMember config (clientIpOf m.1)).toString?.map (·, m.2.reason)
    else none

/-- The write of a client to the blocklist. -/
def blockWrite (block : String × String) : Op K :=
  .redis (.set (Gateway.RedisStateService.blocklistKey block.1) block.2
    (Gateway.seconds config.blocklistTtlSeconds))

/-- The calls that a message asks for. -/
def effectsOf (payload : Json K) : List (Op K) :=
  ((blockOf config payload).map (blockWrite config)).toList ++
    ((auditOf config payload).map (Op.sendAudit auditTopic)).toList

variable {config} in
/-- What a scored message has. -/
theorem scoredMessage_eq_some {payload : Json K} {m : List (Text × Json K) × ScoreResult K} :
    scoredMessage config payload = some m ↔ payload = .obj m.1 ∧
      (member m.1 "signal").bind (scoreSignal config) = some m.2 ∧
        Encodable config (clientIpOf m.1) m.2 := by
  obtain ⟨members, result⟩ := m
  cases payload with
  | obj members' =>
    simp only [scoredMessage, Option.map_eq_some_iff, Option.filter_eq_some_iff, decide_eq_true_eq,
      Prod.mk.injEq, Json.obj.injEq]
    constructor
    · rintro ⟨result', hscored, rfl, rfl⟩
      exact ⟨rfl, hscored⟩
    · rintro ⟨rfl, hscored⟩
      exact ⟨result, hscored, rfl, rfl⟩
  | _ => simp [scoredMessage]

variable {config} in
/-- The work on a message that is scored: block its client, and publish the decision. -/
theorem processMessage_of_scored {payload : Json K} {m : List (Text × Json K) × ScoreResult K}
    (h : scoredMessage config payload = some m) :
    processMessage config payload = ((blockClient config (clientIpOf m.1) m.2).andThen
      (Mono.await (Op.sendAudit auditTopic (auditEvent m.1 m.2)))).onErrorResume (.just ()) := by
  obtain ⟨rfl, hscore, -⟩ := scoredMessage_eq_some.mp h
  simp only [processMessage, hscore]

variable {config} in
/-- The work on any other message is nothing. -/
theorem processMessage_of_unscored {payload : Json K} (h : scoredMessage config payload = none) :
    processMessage config payload = .just () := by
  unfold processMessage
  split
  · rename_i members
    split
    · rfl
    · rename_i result hscore
      by_cases hencodable : Encodable config (clientIpOf members) result
      · have hsome : scoredMessage config (.obj members) = some (members, result) :=
          scoredMessage_eq_some.mpr ⟨rfl, hscore, hencodable⟩
        rw [hsome] at h
        cases h
      · obtain ⟨hblock, hclient⟩ := Classical.not_imp.mp hencodable
        rw [blockClient, if_pos hblock, Option.not_isSome_iff_eq_none.mp hclient]
        rfl
  · rfl

/-- Blocking attempts the write that the message asks for. -/
private theorem attempts_blockClient {payload : Json K} {m : List (Text × Json K) × ScoreResult K}
    (h : scoredMessage config payload = some m) :
    Attempts (blockClient config (clientIpOf m.1) m.2)
      ((blockOf config payload).map (blockWrite config)).toList := by
  have hencodable := (scoredMessage_eq_some.mp h).2.2
  unfold blockClient blockOf
  rw [h, Option.bind_some]
  split
  · rename_i hblock
    obtain ⟨client, hclient⟩ := Option.isSome_iff_exists.mp (hencodable hblock)
    rw [hclient]
    exact (attempts_await _).thenReturn ()
  · exact attempts_just ()

variable {config} in
/-- A message that is not scored asks for nothing. -/
theorem effectsOf_of_unscored {payload : Json K} (h : scoredMessage config payload = none) :
    effectsOf config payload = [] := by
  simp [effectsOf, blockOf, auditOf, h]

/-- The work on a message attempts the calls it asks for, and never fails. -/
theorem processMessage_attempted {payload : Json K} {tr : List (Event (Op K) Res)}
    {s : Signal Unit} (h : Trace (processMessage config payload) tr (.done s)) :
    s ≠ .error ∧ Attempted (effectsOf config payload) tr := by
  cases hscored : scoredMessage config payload with
  | none =>
    rw [processMessage_of_unscored hscored] at h
    obtain ⟨rfl, hs⟩ := h.of_done
    exact ⟨by simp [Mono.done.inj hs], effectsOf_of_unscored hscored ▸ .nil⟩
  | some m =>
    have haudit : ((auditOf config payload).map (Op.sendAudit auditTopic)).toList =
        [Op.sendAudit auditTopic (auditEvent m.1 m.2)] := by
      simp [auditOf, hscored]
    rw [processMessage_of_scored hscored] at h
    rw [effectsOf, haudit]
    exact h.attempted_of_resume ((attempts_blockClient config hscored).andThen (attempts_await _))

/-- The work on a message performs no calls but those it asks for. -/
theorem processMessage_emits_effects (payload : Json K) :
    (processMessage config payload).Emits (· ∈ effectsOf config payload) := by
  cases hscored : scoredMessage config payload with
  | none =>
    rw [processMessage_of_unscored hscored]
    trivial
  | some m =>
    rw [processMessage_of_scored hscored]
    refine Mono.emits_onSignal (Mono.emits_onSignal ?_ fun s => ?_) fun s => by cases s <;> trivial
    · unfold blockClient
      split
      · rename_i hblock
        split
        · trivial
        · rename_i client hclient
          refine Mono.emits_onSignal ⟨?_, fun _ => trivial⟩ fun s => by cases s <;> trivial
          simp [effectsOf, blockOf, hscored, hblock, hclient, blockWrite]
      · trivial
    · have haudit : Op.sendAudit auditTopic (auditEvent m.1 m.2) ∈ effectsOf config payload := by
        simp [effectsOf, auditOf, hscored]
      cases s <;> first | trivial | exact ⟨haudit, fun _ => trivial⟩

variable (deserialize : Gateway.Bytes → Option (Json K))

/-- Work on one record after the other. -/
def consumeLoop : List Gateway.Bytes → Program K Unit
  | [] => .just ()
  | record :: rest =>
    match deserialize record with
    | none => .done .error
    | some payload => (processMessage config payload).andThen (consumeLoop rest)

variable {deserialize} in
/-- The loop depends on its records only through what they are deserialized to. -/
theorem consumeLoop_congr {deserialize' : Gateway.Bytes → Option (Json K)}
    {records records' : List Gateway.Bytes}
    (h : List.Forall₂ (fun record record' => deserialize record = deserialize' record') records
      records') :
    consumeLoop config deserialize records = consumeLoop config deserialize' records' := by
  induction h with
  | nil => rfl
  | cons hrecord _ ih => rw [consumeLoop, consumeLoop, hrecord, ih]

omit [Field K] [LinearOrder K] [FloorRing K] in
/-- The messages that the loop works on: those before the first record that cannot be
deserialized. -/
def consumed : List Gateway.Bytes → List (Json K)
  | [] => []
  | record :: rest =>
    match deserialize record with
    | none => []
    | some payload => payload :: consumed rest

section Malformed

variable {K β : Type} {deserialize : Gateway.Bytes → Option (Json K)}

/-- After a record that cannot be deserialized there is no record with a result. -/
def NothingAfterMalformed (deserialize : Gateway.Bytes → Option (Json K)) (f : Json K → Option β)
    (records : List Gateway.Bytes) : Prop :=
  ∀ pre record post, records = pre ++ record :: post → deserialize record = none →
    ∀ later ∈ post, (deserialize later).bind f = none

/-- The results of the messages that the loop works on are results of the records. -/
theorem sublist_consumed (f : Json K → Option β) (records : List Gateway.Bytes) :
    ((consumed deserialize records).filterMap f).Sublist
      (records.filterMap fun record => (deserialize record).bind f) := by
  induction records with
  | nil => exact .slnil
  | cons record rest ih =>
    unfold consumed
    split
    · exact List.nil_sublist _
    · rename_i payload hpayload
      cases hf : f payload <;> simp [hpayload, hf, ih]

/-- They are all results of the records exactly if none comes after a record that cannot be
deserialized. -/
theorem filterMap_consumed_eq_iff {f : Json K → Option β} {records : List Gateway.Bytes} :
    (consumed deserialize records).filterMap f =
        records.filterMap (fun record => (deserialize record).bind f) ↔
      NothingAfterMalformed deserialize f records := by
  induction records with
  | nil => simp [consumed, NothingAfterMalformed]
  | cons record rest ih =>
    cases hrecord : deserialize record with
    | none =>
      have hempty : consumed deserialize (record :: rest) = [] := by simp [consumed, hrecord]
      rw [hempty, List.filterMap_cons, hrecord]
      simp only [Option.bind_none, List.filterMap_nil, eq_comm (a := []), List.filterMap_eq_nil_iff]
      constructor
      · rintro hnone pre other post hsplit - later hlater
        cases pre with
        | nil =>
          obtain ⟨-, rfl⟩ := List.cons.inj hsplit
          exact hnone later hlater
        | cons first pre =>
          obtain ⟨-, rfl⟩ := List.cons.inj hsplit
          exact hnone later (by simp [hlater])
      · exact fun hnothing => hnothing [] record rest rfl hrecord
    | some payload =>
      have hstep : consumed deserialize (record :: rest) = payload :: consumed deserialize rest := by
        simp [consumed, hrecord]
      have hrest : NothingAfterMalformed deserialize f (record :: rest) ↔
          NothingAfterMalformed deserialize f rest := by
        constructor
        · exact fun h pre other post hsplit => h (record :: pre) other post (by rw [hsplit]; rfl)
        · intro h pre other post hsplit hother
          cases pre with
          | nil =>
            obtain ⟨rfl, -⟩ := List.cons.inj hsplit
            simp [hrecord] at hother
          | cons first pre => exact h pre other post (List.cons.inj hsplit).2 hother
      rw [hstep, hrest, ← ih, List.filterMap_cons, List.filterMap_cons, hrecord, Option.bind_some]
      cases f payload <;> simp

end Malformed

/-- Where the loop ends or waits for the next record, every message that it has worked on has
attempted its calls, one message after the other. -/
theorem consumeLoop_trace {records : List Gateway.Bytes} {tr : List (Event (Op K) Res)}
    {s : Signal Unit} (h : Trace (consumeLoop config deserialize records) tr (.done s)) :
    ∃ parts : List (List (Event (Op K) Res)), tr = parts.flatten ∧
      List.Forall₂ (fun payload part => Attempted (effectsOf config payload) part)
        (consumed deserialize records) parts := by
  induction records generalizing tr with
  | nil =>
    obtain ⟨rfl, -⟩ := h.of_done
    exact ⟨[], rfl, .nil⟩
  | cons record rest ih =>
    unfold consumeLoop at h
    unfold consumed
    split at h
    · rename_i hmalformed
      obtain ⟨rfl, -⟩ := h.of_done
      exact ⟨[], rfl, .nil⟩
    · rename_i payload hpayload
      obtain ⟨part, tr₂, s₁, rfl, hpart, htr₂⟩ := h.ended_onSignal
      obtain ⟨hs₁, hattempted⟩ := processMessage_attempted config hpart
      have hrest : Trace (consumeLoop config deserialize rest) tr₂ (.done s) := by
        cases s₁ with
        | error => exact absurd rfl hs₁
        | value a => exact htr₂
        | empty => exact htr₂
      obtain ⟨parts, rfl, hparts⟩ := ih hrest
      exact ⟨part :: parts, rfl, .cons hattempted hparts⟩

/-- If no call fails, the loop performs all calls that its messages ask for. -/
theorem consumeLoop_ops {records : List Gateway.Bytes} {tr : List (Event (Op K) Res)}
    {s : Signal Unit} (h : Trace (consumeLoop config deserialize records) tr (.done s))
    (hall : AllSucceed tr) :
    tr.map Event.op = (consumed deserialize records).flatMap (effectsOf config) := by
  obtain ⟨parts, rfl, hparts⟩ := consumeLoop_trace config deserialize h
  clear h
  generalize consumed deserialize records = payloads at hparts ⊢
  induction hparts with
  | nil => rfl
  | cons hpart _ ih =>
    rw [List.flatten_cons, allSucceed_append] at hall
    rw [List.flatten_cons, List.map_append, List.flatMap_cons, hpart.map_op hall.1, ih hall.2]

end ApiFirewall.Engine.KafkaConsumer
