import ApiFirewall.Guarantees.Enforcement
import ApiFirewall.Guarantees.RateWindows

/-!
# Bursts that are not scored

A request on a path that is not high-risk is handed on without a score only if its ten-second count
is at most the threshold. The key of the counter lives for at least ten seconds each time, so an
interval of ten seconds meets at most two of its lives, and a life answers every count once. Hence
at most twice the threshold are handed on unscored.
-/

namespace ApiFirewall.Guarantees

open ApiFirewall.Gateway ApiFirewall.Gateway.ZeroTrustFilter ApiFirewall.Gateway.RedisStateService
open ApiFirewall.KeyValue ApiFirewall.Reactive Deployment

variable {K : Type}

/-- The call asks the engine for a score. -/
def isScore : Op K → Bool
  | .postScore _ => true
  | _ => false

/-- The request was handed on without a score. -/
def handedOnUnscored (events : Events K) : Bool :=
  (events.any fun e => isChain e.op) && !(events.any fun e => isScore e.op)

/-- The thread is a request of the client on the path. -/
def isRequestOf (w : State K) (c p : String) (i : ℕ) : Bool :=
  (requestAt w.labels i).any fun exchange => resolveClientIp exchange = some c ∧ exchange.path = p

/-- Such a thread has a request that resolves to the client and has the path. -/
theorem isRequestOf_eq_true {w : State K} {c p : String} {i : ℕ} :
    isRequestOf w c p i = true ↔ ∃ exchange, w.labels[i]? = some (.request exchange) ∧
      resolveClientIp exchange = some c ∧ exchange.path = p := by
  unfold isRequestOf
  constructor
  · intro h
    obtain ⟨exchange, hrequest, hexchange⟩ := (Option.any_eq_true _ _).mp h
    exact ⟨exchange, requestAt_eq_some.mp hrequest, of_decide_eq_true hexchange⟩
  · rintro ⟨exchange, hlabel, hexchange⟩
    simp [requestAt_eq_some.mpr hlabel, hexchange]

/-- The ten-second counter of the thread was answered in the interval of the given length. -/
def countedIn (w : State K) (key : String) (t length i : ℕ) : Bool :=
  (hits key w.log).any fun h => h.caller = (i, .first) ∧ t ≤ h.time ∧ h.time < t + length

/-- The requests of a client on a path that were counted in an interval and handed on unscored. -/
def unscoredIn (w : State K) (c p : String) (t length : ℕ) : List ℕ :=
  (List.range w.threads.length).filter fun i =>
    isRequestOf w c p i && handedOnUnscored (w.events i) && countedIn w (countKey c p) t length i

section Runs

variable [Field K] [LinearOrder K] [FloorRing K] {d : Deployment K} {w : State K}

/-- A request on a path that is not high-risk is handed on unscored only if its ten-second counter
was answered at most the threshold. -/
theorem count_of_unscored {P : Action Stimulus (Env K) → Prop} (hrun : d.system.Run P start w)
    {i : ℕ} {exchange : Exchange} (hi : w.labels[i]? = some (.request exchange))
    (hspelt : d.properties.highRiskEndpoints.any (startsWith exchange.path) = false)
    (hunscored : handedOnUnscored (w.events i) = true) :
    ∃ clientIp count, resolveClientIp exchange = some clientIp ∧
      ⟨[.first], .redis (.increment (countKey clientIp exchange.path)), .value count⟩ ∈
        w.events i ∧ count ≤ d.properties.rateEscalationThreshold := by
  obtain ⟨m', hprogress⟩ := progress hrun hi
  obtain ⟨hchain, hscore⟩ := Bool.and_eq_true_iff.mp hunscored
  obtain ⟨e, he, hop⟩ := List.any_eq_true.mp hchain
  obtain ⟨before, after, hsplit⟩ := List.append_of_mem he
  obtain ⟨clientIp, count, hresolved, hcount, hcleared⟩ :=
    (gate_of_progress hprogress hsplit hop).1.cleared
  have hbefore : ∀ a ∈ before, a ∈ w.events i := fun a ha => by simp [hsplit, ha]
  refine ⟨clientIp, count, hresolved, hbefore _ hcount, ?_⟩
  have hlow : ¬ isHighRisk d.properties exchange.path count = true := by
    intro hrisk
    obtain ⟨signal, reply, result, hmem, -⟩ := hcleared hrisk
    have hnone := List.any_eq_false.mp (by simpa using hscore) _ (hbefore _ hmem)
    exact hnone rfl
  simpa [isHighRisk, hspelt] using hlow

/-- So every count of its ten-second counter is at most the threshold. -/
theorem count_le_of_unscored {P : Action Stimulus (Env K) → Prop} (hrun : d.system.Run P start w)
    {i : ℕ} {exchange : Exchange} (hi : w.labels[i]? = some (.request exchange))
    (hspelt : d.properties.highRiskEndpoints.any (startsWith exchange.path) = false)
    (hunscored : handedOnUnscored (w.events i) = true) {key : String} {count : ℤ}
    (hcount : ⟨[.first], .redis (.increment key), .value count⟩ ∈ w.events i) :
    count ≤ d.properties.rateEscalationThreshold := by
  obtain ⟨m', hprogress⟩ := progress hrun hi
  obtain ⟨clientIp, count', -, hcount', hle⟩ := count_of_unscored hrun hi hspelt hunscored
  obtain rfl : count = count' := by
    simpa using increment_unique hprogress (by decide) hcount hcount'
  exact hle

/-- Every window lasts at least ten seconds. -/
private theorem ten_le_windowLength (branch : Branch) : seconds 10 ≤ windowLength branch := by
  cases branch <;> decide

/-- In every interval of ten seconds, at most twice the threshold of the requests of one client on
one path that is not high-risk are handed on without a score. -/
theorem unscored_burst_le (hrun : d.system.Run StoreAnswers start w) {c p : String}
    (hspelt : d.properties.highRiskEndpoints.any (startsWith p) = false)
    (hthreshold : 0 ≤ d.properties.rateEscalationThreshold) (t : ℕ) :
    ((unscoredIn w c p t (seconds 10)).length : ℤ) ≤ 2 * d.properties.rateEscalationThreshold := by
  obtain ⟨hlives, hsorted⟩ := lives_of_run hrun c p
  refine le_trans ?_ (hlives.smallHits_le hsorted (fun caller => ten_le_windowLength caller.2)
    hthreshold t)
  have hsub : unscoredIn w c p t (seconds 10) ⊆ ((hits (countKey c p) w.log).filter fun h =>
      decide (t ≤ h.time ∧ h.time < t + seconds 10 ∧
        h.count ≤ d.properties.rateEscalationThreshold)).map fun h => h.caller.1 := by
    intro i hi
    obtain ⟨-, hall⟩ := List.mem_filter.mp hi
    simp only [Bool.and_eq_true] at hall
    obtain ⟨⟨hpair, hunscored⟩, hcounted⟩ := hall
    obtain ⟨exchange, hlabel, -, rfl⟩ := isRequestOf_eq_true.mp hpair
    obtain ⟨h, hmem, hin⟩ := List.any_eq_true.mp hcounted
    obtain ⟨hcaller, hle, hlt⟩ := of_decide_eq_true hin
    obtain ⟨e, he, hhit⟩ := List.mem_filterMap.mp hmem
    obtain ⟨-, hthread, hevent⟩ := hitOf_eq_some.mp hhit
    rw [hcaller] at hthread hevent
    have hcount := count_le_of_unscored hrun hlabel hspelt hunscored
      (mem_eventsOf.mpr ⟨e, he, hthread, hevent⟩)
    exact List.mem_map.mpr ⟨h, List.mem_filter.mpr
      ⟨hmem, decide_eq_true ⟨hle, hlt, hcount⟩⟩, congrArg Prod.fst hcaller⟩
  have hlength := (List.subperm_of_subset (List.nodup_range.filter _) hsub).length_le
  rw [List.length_map] at hlength
  rw [smallHits, List.countP_eq_length_filter]
  exact_mod_cast hlength

end Runs

/-- The sample deployment with a threshold of three. -/
def cautious : Deployment ℚ :=
  { sample with properties := { sample.properties with rateEscalationThreshold := 3 } }

/-- A registration of a client, answered at once. -/
def registering (i : ℕ) (fresh : Bool) : List (Action Stimulus (Env ℚ)) :=
  .spawn (.request (sampleRequest "/api/auth/register" "10.0.0.1")) ::
    callTop 1 i sampleEnv ++ callCounters fresh i sampleEnv ++ callTop 4 i sampleEnv

/-- A run with a burst across two windows: the first window is over when the last two of four registrations
come. -/
def registrationBurst : State ℚ :=
  cautious.system.after (registering 0 true ++ .tick 5000 :: registering 1 false ++
    .tick 7000 :: registering 2 true ++ registering 3 false) start

/-- Three of the registrations are handed on unscored within ten seconds, which is within the bound. -/
theorem registrationBurst_unscored :
    unscoredIn registrationBurst "10.0.0.1" "/api/auth/register" 5000 (seconds 10) = [1, 2, 3] ∧
      ((unscoredIn registrationBurst "10.0.0.1" "/api/auth/register" 5000 (seconds 10)).length : ℤ) ≤
        2 * 3 :=
  ⟨by decide +kernel, unscored_burst_le (d := cautious) (System.Run.after (by decide +kernel) (by decide))
    (by decide +kernel) (by decide) 5000⟩

end ApiFirewall.Guarantees
