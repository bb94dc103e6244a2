import ApiFirewall.Engine.KafkaConsumer
import ApiFirewall.Gateway.RecordText
import ApiFirewall.Reactive.Trace

/-!
# What the work on a message can have done

The message of an envelope carries the client of the request as it is, and its signal as a lenient
encoder leaves it. If that signal scores as a block and the client is known, the first call of the work
writes the client to the blocklist; otherwise the work never writes to the store.
-/

namespace ApiFirewall.Engine.KafkaConsumer

open ApiFirewall.Wire ApiFirewall.Gateway ApiFirewall.KeyValue ApiFirewall.Reactive

variable {K : Type}

/-- The client of an envelope is known unless it is the text that stands for an unknown one. -/
theorem isKnown_str (s : String) : isKnown (.str s : Json K) = true ↔ s ≠ unknownClient := by
  simp [isKnown]

/-- The client of an envelope is received as it is, and its signal as a value of its own. -/
theorem received_members (order : MapOrder K) (envelope : Envelope K) :
    ∃ members, envelope.received order = .obj members ∧
      clientIpOf members = .str envelope.clientIp ∧
      member members "signal" = some (envelope.signal.received order) :=
  ⟨_, envelope.received_eq order, by simp [clientIpOf, member], by simp [member]⟩

variable [Field K] [LinearOrder K] [FloorRing K] {config : EngineConfig K} {order : MapOrder K}

/-- The only command of the work on an envelope writes its client to the blocklist, if its signal
scores as a block and the client is known. -/
theorem command_of_envelope {envelope : Envelope K} {command : Command String}
    (h : MessageCall config (envelope.received order) (.redis command)) :
    ∃ result, scoreSignal config (envelope.signal.received order) = some result ∧
      result.decision = .block ∧ envelope.clientIp ≠ unknownClient ∧
      command = .set (RedisStateService.blocklistKey envelope.clientIp) result.reason
        (seconds config.blocklistTtlSeconds) := by
  obtain ⟨members, hmembers, hclientIp, hsignal⟩ := received_members order envelope
  cases h with
  | @block members' result client hpayload hscore hblock hclient =>
    obtain rfl := Json.obj.inj (hmembers.symm.trans hpayload)
    rw [hsignal, Option.bind_some] at hscore
    rw [hclientIp] at hblock hclient
    obtain rfl := Text.ofString_inj.mp hclient
    exact ⟨result, hscore, hblock.1, (isKnown_str _).mp hblock.2, rfl⟩

/-- The work on a message whose signal scores: block its client, and publish the decision. -/
theorem processMessage_obj {members : List (Text × Json K)} {result : ScoreResult K}
    (hscore : (member members "signal").bind (scoreSignal config) = some result) :
    processMessage config (.obj members) =
      ((blockClient config (clientIpOf members) result).andThen
        (Mono.await (Op.sendAudit auditTopic (auditEvent members result)))).onErrorResume
          (.just ()) := by
  simp only [processMessage, hscore]

/-- The work on an envelope whose signal scores. -/
theorem processMessage_envelope {envelope : Envelope K} {result : ScoreResult K}
    (hscore : scoreSignal config (envelope.signal.received order) = some result) :
    ∃ event, processMessage config (envelope.received order) =
      ((blockClient config (.str envelope.clientIp) result).andThen
        (Mono.await (Op.sendAudit auditTopic event))).onErrorResume (.just ()) := by
  obtain ⟨members, hmembers, hclientIp, hsignal⟩ := received_members order envelope
  have hmember : (member members "signal").bind (scoreSignal config) = some result := by
    rw [hsignal]
    exact hscore
  rw [hmembers, processMessage_obj hmember, hclientIp]
  exact ⟨_, rfl⟩

/-- Finished work on an envelope of a known client whose signal scores as a block has written the
client to the blocklist. -/
theorem block_mem_of_envelope {envelope : Envelope K} {tr : List (Event (Op K) Res)}
    {m' : Program K Unit} (h : Trace (processMessage config (envelope.received order)) tr m')
    (hm : m'.Completes) {result : ScoreResult K}
    (hscore : scoreSignal config (envelope.signal.received order) = some result)
    (hblock : result.decision = .block) (hknown : envelope.clientIp ≠ unknownClient) :
    ∃ r, .top (.redis (.set (RedisStateService.blocklistKey envelope.clientIp) result.reason
      (seconds config.blocklistTtlSeconds))) r ∈ tr := by
  obtain ⟨event, hprogram⟩ := processMessage_envelope hscore
  have hclient : (formatMember config (.str envelope.clientIp)).toString? = some envelope.clientIp :=
    Text.toString?_ofString envelope.clientIp
  rw [hprogram, blockClient, if_pos ⟨hblock, (isKnown_str _).mpr hknown⟩, hclient] at h
  rcases h.of_call with ⟨-, rfl⟩ | ⟨r, rest, rfl, -⟩
  · obtain ⟨a, ha⟩ := hm
    simp [Mono.outcome] at ha
  · exact ⟨r, List.mem_cons_self ..⟩

end ApiFirewall.Engine.KafkaConsumer
