import ApiFirewall.Engine.ConsumeLoop

/-!
# What a message leaves behind

The effects of the calls that have succeeded: the audit events that were published and the clients
that were written to the blocklist. A message publishes its audit event exactly if none of its
calls failed, and it can leave a block behind without an audit event, but not the other way round.
-/

namespace ApiFirewall.Engine.KafkaConsumer

open ApiFirewall.Wire ApiFirewall.KeyValue ApiFirewall.Reactive

section Observations

variable {K : Type}

/-- The audit event that a call has published. -/
def publishedEvent : Event (Op K) Res → Option (AuditEvent K)
  | ⟨_, .sendAudit _ event, reply⟩ => if reply.isError then none else some event
  | _ => none

/-- The key that a call has written, with its value. -/
def writtenKey : Event (Op K) Res → Option (String × String)
  | ⟨_, .redis (.set key value _), reply⟩ => if reply.isError then none else some (key, value)
  | _ => none

/-- The audit events that have been published. -/
def published (tr : List (Event (Op K) Res)) : List (AuditEvent K) := tr.filterMap publishedEvent

/-- The keys that have been written, with their values. -/
def written (tr : List (Event (Op K) Res)) : List (String × String) := tr.filterMap writtenKey

@[simp] theorem publishedEvent_sendAudit (topic : String) (event : AuditEvent K)
    (reply : Signal Unit) : publishedEvent (.top (.sendAudit topic event) reply) =
      if reply.isError then none else some event := rfl

@[simp] theorem publishedEvent_redis (c : Command String) (reply : Signal c.Result) :
    publishedEvent (.top (.redis c : Op K) reply) = none := rfl

@[simp] theorem writtenKey_sendAudit (topic : String) (event : AuditEvent K)
    (reply : Signal Unit) : writtenKey (.top (.sendAudit topic event) reply) = none := rfl

@[simp] theorem writtenKey_set (key value : String) (ttl : ℕ) (reply : Signal Bool) :
    writtenKey (.top (.redis (.set key value ttl) : Op K) reply) =
      if reply.isError then none else some (key, value) := rfl

@[simp] theorem published_nil : published ([] : List (Event (Op K) Res)) = [] := rfl

@[simp] theorem written_nil : written ([] : List (Event (Op K) Res)) = [] := rfl

@[simp] theorem published_cons (e : Event (Op K) Res) (tr : List (Event (Op K) Res)) :
    published (e :: tr) = (publishedEvent e).toList ++ published tr := by
  cases h : publishedEvent e <;> simp [published, h]

@[simp] theorem written_cons (e : Event (Op K) Res) (tr : List (Event (Op K) Res)) :
    written (e :: tr) = (writtenKey e).toList ++ written tr := by
  cases h : writtenKey e <;> simp [written, h]

@[simp] theorem published_append (tr₁ tr₂ : List (Event (Op K) Res)) :
    published (tr₁ ++ tr₂) = published tr₁ ++ published tr₂ := List.filterMap_append

end Observations

variable {K : Type} [Field K] [LinearOrder K] [FloorRing K] {config : EngineConfig K}

/-- A message asks for a block only along with an audit event. -/
theorem auditOf_of_blockOf {payload : Json K} {block : String × String}
    (h : blockOf config payload = some block) : ∃ event, auditOf config payload = some event := by
  obtain ⟨m, hm, -⟩ := Option.bind_eq_some_iff.mp h
  exact ⟨auditEvent m.1 m.2, by simp [auditOf, hm]⟩

/-- The only command that a message asks for is the write of its block. -/
theorem redis_mem_effectsOf {payload : Json K} {c : Command String} :
    .redis c ∈ effectsOf config payload ↔
      ∃ block, blockOf config payload = some block ∧ blockWrite config block = .redis c := by
  simp [effectsOf]

/-- What a message asks for: nothing, or an audit event, or a block and then an audit event. -/
theorem effectsOf_cases (config : EngineConfig K) (payload : Json K) :
    (auditOf config payload = none ∧ blockOf config payload = none ∧
      effectsOf config payload = []) ∨
    ∃ event, auditOf config payload = some event ∧
      ((blockOf config payload = none ∧
        effectsOf config payload = [.sendAudit auditTopic event]) ∨
      ∃ block, blockOf config payload = some block ∧
        effectsOf config payload = [blockWrite config block, .sendAudit auditTopic event]) := by
  cases hblock : blockOf config payload with
  | some block =>
    obtain ⟨event, haudit⟩ := auditOf_of_blockOf hblock
    exact .inr ⟨event, haudit, .inr ⟨block, rfl, by simp [effectsOf, hblock, haudit]⟩⟩
  | none =>
    cases haudit : auditOf config payload with
    | none => exact .inl ⟨rfl, rfl, by simp [effectsOf, hblock, haudit]⟩
    | some event => exact .inr ⟨event, rfl, .inl ⟨rfl, by simp [effectsOf, hblock, haudit]⟩⟩

/-- How the work on a message can have gone: its calls, up to the first one that failed. -/
inductive Worked (config : EngineConfig K) (payload : Json K) : List (Event (Op K) Res) → Prop where
  | skipped (haudit : auditOf config payload = none) (hblock : blockOf config payload = none) :
      Worked config payload []
  | audited {event : AuditEvent K} (haudit : auditOf config payload = some event)
      (hblock : blockOf config payload = none) (reply : Signal Unit) :
      Worked config payload [.top (.sendAudit auditTopic event) reply]
  | unblocked {event : AuditEvent K} {block : String × String}
      (haudit : auditOf config payload = some event) (hblock : blockOf config payload = some block) :
      Worked config payload [.top (blockWrite config block) .error]
  | blocked {event : AuditEvent K} {block : String × String}
      (haudit : auditOf config payload = some event) (hblock : blockOf config payload = some block)
      {reply : Signal Bool} (hreply : reply ≠ .error) (reply' : Signal Unit) :
      Worked config payload
        [.top (blockWrite config block) reply, .top (.sendAudit auditTopic event) reply']

/-- Attempted effects are finished work. -/
theorem worked_of_attempted {payload : Json K} {part : List (Event (Op K) Res)}
    (h : Attempted (effectsOf config payload) part) : Worked config payload part := by
  have hsend : ∀ {event : AuditEvent K} {tr : List (Event (Op K) Res)},
      Attempted [.sendAudit auditTopic event] tr →
        ∃ reply, tr = [.top (.sendAudit auditTopic event) reply] := by
    intro event tr htr
    cases htr with
    | failed => exact ⟨.error, rfl⟩
    | next hr hrest =>
      cases hrest
      exact ⟨_, rfl⟩
  rcases effectsOf_cases config payload with ⟨haudit, hblock, heffects⟩ |
    ⟨event, haudit, ⟨hblock, heffects⟩ | ⟨block, hblock, heffects⟩⟩
  · rw [heffects] at h
    cases h
    exact .skipped haudit hblock
  · rw [heffects] at h
    obtain ⟨reply, rfl⟩ := hsend h
    exact .audited haudit hblock reply
  · rw [heffects] at h
    cases h with
    | failed => exact .unblocked haudit hblock
    | next hr hrest =>
      obtain ⟨reply, rfl⟩ := hsend hrest
      exact .blocked haudit hblock hr reply

/-- A message has published its audit event exactly if none of its calls has failed, and no event
otherwise. -/
theorem published_of_worked {payload : Json K} {part : List (Event (Op K) Res)}
    (h : Worked config payload part) :
    (AllSucceed part → published part = (auditOf config payload).toList) ∧
      (¬ AllSucceed part → published part = [] ∧ (auditOf config payload).isSome) := by
  have hsend : ∀ {tr : List (Event (Op K) Res)} {event : AuditEvent K} {reply : Signal Unit},
      AllSucceed tr → published tr = [] → auditOf config payload = some event →
        let part := tr ++ [.top (.sendAudit auditTopic event) reply]
        (AllSucceed part → published part = (auditOf config payload).toList) ∧
          (¬ AllSucceed part → published part = [] ∧ (auditOf config payload).isSome) := by
    intro tr event reply htr hnone haudit
    cases reply with
    | error =>
      refine ⟨fun hall => absurd ((allSucceed_append _ _).mp hall).2
        (not_allSucceed_cons_error _ _), fun _ => ⟨?_, by simp [haudit]⟩⟩
      rw [published_append, hnone]
      rfl
    | value a =>
      refine ⟨fun _ => ?_, fun hfailed => absurd ?_ hfailed⟩
      · rw [published_append, hnone, haudit]
        rfl
      · simp [htr, Event.top]
    | empty =>
      refine ⟨fun _ => ?_, fun hfailed => absurd ?_ hfailed⟩
      · rw [published_append, hnone, haudit]
        rfl
      · simp [htr, Event.top]
  cases h with
  | skipped haudit => simp [haudit]
  | audited haudit _ reply => exact hsend allSucceed_nil published_nil haudit
  | unblocked haudit =>
    exact ⟨fun hall => absurd hall (not_allSucceed_cons_error _ _), fun _ => ⟨rfl, by simp [haudit]⟩⟩
  | @blocked event block haudit _ reply hreply reply' =>
    have hwritten : AllSucceed ([.top (blockWrite config block) reply] : List (Event (Op K) Res)) :=
      (allSucceed_cons _ _).mpr ⟨hreply, allSucceed_nil⟩
    exact hsend hwritten rfl haudit

/-- Messages have published audit events that they ask for, and all of them exactly if no call has
failed. -/
theorem published_of_parts {payloads : List (Json K)} {parts : List (List (Event (Op K) Res))}
    (h : List.Forall₂ (Worked config) payloads parts) :
    (published parts.flatten).Sublist (payloads.filterMap (auditOf config)) ∧
      (published parts.flatten = payloads.filterMap (auditOf config) ↔ AllSucceed parts.flatten) := by
  induction h with
  | nil => simp
  | @cons payload part payloads parts hpart _ ih =>
    obtain ⟨hsub, hiff⟩ := ih
    obtain ⟨hok, hfailed⟩ := published_of_worked hpart
    have hcons : (payload :: payloads).filterMap (auditOf config) =
        (auditOf config payload).toList ++ payloads.filterMap (auditOf config) := by
      cases haudit : auditOf config payload <;> simp [haudit]
    rw [List.flatten_cons, published_append, allSucceed_append, hcons]
    by_cases hall : AllSucceed part
    · rw [hok hall]
      exact ⟨hsub.append_left _, by rw [List.append_cancel_left_eq, hiff, and_iff_right hall]⟩
    · obtain ⟨hnone, haudit⟩ := hfailed hall
      obtain ⟨event, haudit⟩ := Option.isSome_iff_exists.mp haudit
      rw [hnone, haudit]
      refine ⟨hsub.trans (List.sublist_append_right _ _), iff_of_false (fun heq => ?_) fun h => hall h.1⟩
      have hlength := hsub.length_le
      rw [show published parts.flatten = _ from heq] at hlength
      simp at hlength

/-- The entry that a block leaves in the store. -/
def blockEntry (block : String × String) : String × String :=
  (Gateway.RedisStateService.blocklistKey block.1, block.2)

/-- A message has written the client that it asks to block, unless that write has failed, and
nothing else. -/
theorem written_of_worked {payload : Json K} {part : List (Event (Op K) Res)}
    (h : Worked config payload part) :
    (AllSucceed part → written part = ((blockOf config payload).map blockEntry).toList) ∧
      ∀ entry ∈ written part, (blockOf config payload).map blockEntry = some entry := by
  cases h with
  | skipped haudit hblock => simp [hblock]
  | audited haudit hblock reply => simp [hblock]
  | unblocked haudit hblock =>
    exact ⟨fun hall => absurd hall (not_allSucceed_cons_error _ _), by simp [blockWrite, Signal.isError]⟩
  | @blocked event block haudit hblock reply hreply reply' =>
    have hok : reply.isError = false := by
      cases reply <;> first | rfl | exact absurd rfl hreply
    simp [blockWrite, blockEntry, hblock, hok]

/-- Every block has the same reason. -/
theorem reason_of_blockOf {payload : Json K} {block : String × String}
    (h : blockOf config payload = some block) :
    block.2 = EnsembleThreatModel.blockReason := by
  obtain ⟨⟨members, result⟩, hm, h⟩ := Option.bind_eq_some_iff.mp h
  obtain ⟨hblock, hclient⟩ := Option.ite_none_right_eq_some.mp h
  obtain ⟨client, -, rfl⟩ := Option.map_eq_some_iff.mp hclient
  obtain ⟨-, hscore, -⟩ := scoredMessage_eq_some.mp hm
  obtain ⟨signal, -, hscore⟩ := Option.bind_eq_some_iff.mp hscore
  obtain ⟨request, -, hscore⟩ := Option.bind_eq_some_iff.mp hscore
  obtain ⟨vector, -, hscore⟩ := Option.bind_eq_some_iff.mp hscore
  exact EnsembleThreatModel.reason_of_block _ hscore hblock.1

/-- A message asks for a block exactly if its audit event says so and names a known client. -/
theorem blockOf_eq_some {payload : Json K} {block : String × String} :
    blockOf config payload = some block ↔ ∃ event, auditOf config payload = some event ∧
      event.decision = Decision.block.text ∧ isKnown event.clientIp = true ∧
      formatMember config event.clientIp = block.1 ∧ event.reason = block.2 := by
  obtain ⟨client, reason⟩ := block
  unfold blockOf auditOf
  cases hscored : scoredMessage config payload with
  | none => simp
  | some m =>
    simp only [Option.bind_some, Option.map_some, Option.some.injEq, exists_eq_left', auditEvent,
      Decision.text_eq_block]
    split
    · rename_i hblock
      rw [Option.map_eq_some_iff]
      constructor
      · rintro ⟨client', hclient, heq⟩
        obtain ⟨rfl, rfl⟩ := Prod.mk.inj heq
        exact ⟨hblock.1, hblock.2, Text.toString?_eq_some.mp hclient, rfl⟩
      · rintro ⟨-, -, hclient, rfl⟩
        exact ⟨client, Text.toString?_eq_some.mpr hclient, rfl⟩
    · rename_i hpass
      simp only [reduceCtorEq, false_iff]
      exact fun hblock => hpass ⟨hblock.1, hblock.2.1⟩

/-- A message whose audit event says so, and names a known client, asks for a block. -/
theorem exists_blockOf {payload : Json K} {event : AuditEvent K}
    (h : auditOf config payload = some event) (hdecision : event.decision = Decision.block.text)
    (hknown : isKnown event.clientIp = true) : ∃ block, blockOf config payload = some block := by
  obtain ⟨m, hscored, rfl⟩ := Option.map_eq_some_iff.mp h
  have hasks : AsksBlock (clientIpOf m.1) m.2 := ⟨Decision.text_eq_block.mp hdecision, hknown⟩
  obtain ⟨client, hclient⟩ :=
    Option.isSome_iff_exists.mp ((scoredMessage_eq_some.mp hscored).2.2 hasks)
  exact ⟨(client, m.2.reason), by simp [blockOf, hscored, hasks, hclient]⟩

end ApiFirewall.Engine.KafkaConsumer
