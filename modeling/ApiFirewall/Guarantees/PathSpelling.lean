import ApiFirewall.Gateway.PathRouting
import ApiFirewall.Guarantees.RateCounts

/-!
# Spellings of a path

The router and the filter look at different views of a path: the router at its decoded segments, the
filter at the text that the client sent. The filter treats two spellings of a path alike only if
they are the same text, and it scores a request for a high-risk service only if its text says so or
its counter is above the threshold.
-/

namespace ApiFirewall.Guarantees

open ApiFirewall.Gateway ApiFirewall.Gateway.ZeroTrustFilter ApiFirewall.Gateway.RedisStateService
open ApiFirewall.KeyValue ApiFirewall.Reactive Deployment

variable {K : Type}

/-- The path is routed to the checkout service or is the login endpoint. -/
def routedToHighRisk (path : String) : Bool :=
  routeOf path = some .checkoutService || isLoginEndpoint path

/-- The text of the path begins with a high-risk endpoint. -/
def speltHighRisk (properties : SecurityProperties K) (path : String) : Bool :=
  properties.highRiskEndpoints.any (startsWith path)

/-- A client's requests are counted together on one path only. -/
theorem countKey_inj_right {clientIp p q : String} :
    countKey clientIp p = countKey clientIp q ↔ p = q := by
  simp [countKey]

/-- Two paths are decided alike at every rate exactly if both are spelt high-risk, or neither is. -/
theorem decidedAlike_iff (properties : SecurityProperties K) (p q : String) :
    (∀ rate10s, isHighRisk properties p rate10s = isHighRisk properties q rate10s) ↔
      speltHighRisk properties p = speltHighRisk properties q := by
  constructor
  · intro h
    simpa [isHighRisk, speltHighRisk] using h properties.rateEscalationThreshold
  · intro h rate10s
    rw [isHighRisk, isHighRisk, ← speltHighRisk, ← speltHighRisk, h]

variable [Field K]

/-- The filter decides alike on two paths, expects the same ranges, and counts their requests
together. -/
structure TreatedAlike (properties : SecurityProperties K) (p q : String) : Prop where
  decision : ∀ rate10s, isHighRisk properties p rate10s = isHighRisk properties q rate10s
  ranges : ∀ field, properties.baselineFor p field = properties.baselineFor q field
  counter : ∀ clientIp, countKey clientIp p = countKey clientIp q

/-- Only a path itself is treated like it. -/
theorem treatedAlike_iff_eq (properties : SecurityProperties K) (p q : String) :
    TreatedAlike properties p q ↔ p = q := by
  constructor
  · intro h
    exact countKey_inj_right.mp (h.counter "")
  · rintro rfl
    exact ⟨fun _ => rfl, fun _ => rfl, fun _ => rfl⟩

/-- Every path has a spelling that is routed like it and not treated like it. -/
theorem exists_treated_differently (properties : SecurityProperties K) (p : String) :
    ∃ q, segments p = segments q ∧ ¬ TreatedAlike properties p q := by
  refine ⟨p ++ ";", (segments_append_semicolon p).symm, fun h => ?_⟩
  have hlength := congrArg String.length ((treatedAlike_iff_eq properties p _).mp h)
  simp at hlength

/-- A request that is handed on was scored exactly if it is high-risk by its text or by its
ten-second count. -/
theorem scored_iff_of_progress {platform : Platform K} {properties : SecurityProperties K}
    {exchange : Exchange} {m' : Program K Unit} {tr : Events K} {c : String}
    (h : Progress platform properties exchange m' tr) (hc : resolveClientIp exchange = some c)
    (hchain : (tr.any fun e => isChain e.op) = true) : ∃ rate10s,
      ⟨[.first], .redis (.increment (countKey c exchange.path)), .value rate10s⟩ ∈ tr ∧
        ((tr.any fun e => isScore e.op) = true ↔
          isHighRisk properties exchange.path rate10s = true) := by
  obtain ⟨e, he, hop⟩ := List.any_eq_true.mp hchain
  obtain ⟨before, after, hsplit⟩ := List.append_of_mem he
  obtain ⟨clientIp, rate10s, hclient, hcount, hcleared⟩ := (gate_of_progress h hsplit hop).1.cleared
  obtain rfl : clientIp = c := Option.some.inj (hclient.symm.trans hc)
  have hbefore : ∀ a ∈ before, a ∈ tr := fun a ha => by simp [hsplit, ha]
  refine ⟨rate10s, hbefore _ hcount, fun hscore => ?_, fun hrisk => ?_⟩
  · obtain ⟨a, ha, hask⟩ := List.any_eq_true.mp hscore
    obtain ⟨count, hcount', hrisk⟩ := risk_of_score h ha hask hc
    obtain rfl : count = rate10s :=
      Signal.value.inj (increment_unique h (by decide) hcount' (hbefore _ hcount))
    exact hrisk
  · obtain ⟨signal, reply, result, hmem, -⟩ := hcleared hrisk
    exact List.any_eq_true.mpr ⟨_, hbefore _ hmem, rfl⟩

/-- Two spellings of a path are decided alike exactly if both or neither are spelt high-risk, and
treated alike exactly if they are the same text; and a request for a high-risk service that is
handed on was scored exactly if its text or its count says so. -/
theorem spelling_decides [LinearOrder K] [FloorRing K] (d : Deployment K) {w : State K}
    (hrun : d.system.Run Anything start w) :
    (∀ p q, segments p = segments q →
      ((∀ rate10s, isHighRisk d.properties p rate10s = isHighRisk d.properties q rate10s) ↔
        speltHighRisk d.properties p = speltHighRisk d.properties q) ∧
      (TreatedAlike d.properties p q ↔ p = q)) ∧
      ∀ (i : ℕ) exchange c, w.labels[i]? = some (.request exchange) →
        resolveClientIp exchange = some c → routedToHighRisk exchange.path = true →
        ((w.events i).any fun e => isChain e.op) = true → ∃ rate10s,
          ⟨[.first], .redis (.increment (countKey c exchange.path)), .value rate10s⟩ ∈ w.events i ∧
          (((w.events i).any fun e => isScore e.op) = true ↔
            speltHighRisk d.properties exchange.path = true ∨
              d.properties.rateEscalationThreshold < rate10s) := by
  refine ⟨fun p q _ => ⟨decidedAlike_iff d.properties p q, treatedAlike_iff_eq d.properties p q⟩, ?_⟩
  intro i exchange c hi hc _ hchain
  obtain ⟨m', hprogress⟩ := progress hrun hi
  obtain ⟨rate10s, hcount, hscored⟩ := scored_iff_of_progress hprogress hc hchain
  refine ⟨rate10s, hcount, hscored.trans ?_⟩
  simp [isHighRisk, speltHighRisk]

/-- A request whose path spells out an escape. -/
def encodedRequest : Exchange :=
  { sampleRequest "/api/%63heckout" "10.0.0.1" with headers := [("Authorization", "Bearer good")] }

/-- A run in which that request is handed on. -/
def encodedCheckout : State ℚ :=
  sample.system.after
    (.spawn (.request encodedRequest) :: callTop 2 0 sampleEnv ++ callCounters true 0 sampleEnv ++
      callTop 4 0 sampleEnv) start

/-- The text and the count of that request decide whether it was scored. -/
theorem encodedCheckout_unscored : ∃ rate10s,
    ⟨[.first], .redis (.increment (countKey "10.0.0.1" "/api/%63heckout")), .value rate10s⟩ ∈
      encodedCheckout.events 0 ∧
    (((encodedCheckout.events 0).any fun e => isScore e.op) = true ↔
      speltHighRisk sample.properties "/api/%63heckout" = true ∨
        sample.properties.rateEscalationThreshold < rate10s) :=
  (spelling_decides sample (System.Run.after rfl fun _ _ => trivial)).2 0 encodedRequest "10.0.0.1"
    rfl rfl (by decide +kernel) rfl

/-- Two spellings of the checkout path have the same segments and are decided differently, and a
request with the second one is routed to the checkout service and handed on unscored. -/
theorem encoded_treated_differently :
    segments "/api/checkout" = segments "/api/%63heckout" ∧
      isHighRisk sample.properties "/api/checkout" 1 = true ∧
      isHighRisk sample.properties "/api/%63heckout" 1 = false ∧
      ¬ TreatedAlike sample.properties "/api/checkout" "/api/%63heckout" ∧
      sample.system.Run Anything start encodedCheckout ∧
      encodedCheckout.labels = [.request encodedRequest] ∧
      routeOf encodedRequest.path = some .checkoutService ∧
      handedOnUnscored (encodedCheckout.events 0) = true := by
  refine ⟨by decide +kernel, by decide +kernel, by decide +kernel, fun h => ?_,
    System.Run.after rfl fun _ _ => trivial, rfl, by decide +kernel, rfl⟩
  exact absurd ((treatedAlike_iff_eq _ _ _).mp h) (by decide)

end ApiFirewall.Guarantees
