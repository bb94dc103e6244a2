import ApiFirewall.Guarantees.UnscoredBurst

/-!
# Rates in signals

The two rates of a signal should count the requests of a client on a path since its current windows
of ten seconds and of a minute were opened. Both counters share one key, so the rates are right in
the runs in which no answered increment finds the key present outside an open window of its own
length, and in no others. In particular they are wrong for every request whose two increments come
close together.
-/

namespace ApiFirewall.Guarantees

open ApiFirewall.Gateway ApiFirewall.Gateway.ZeroTrustFilter ApiFirewall.Gateway.RedisStateService
open ApiFirewall.KeyValue ApiFirewall.Reactive Deployment

variable {K : Type}

/-- When one of the two counters of a key was incremented. -/
def countedTimes (key : String) (branch : Branch) (log : List (Entry (Op K) Res)) : List ℕ :=
  timesOf Prod.snd branch (hits key log)

/-- Every answered increment that finds the key present comes in an open window of its own
length. -/
def WindowsApart (key : String) (log : List (Entry (Op K) Res)) : Prop :=
  ∀ (pre : List (Entry (Op K) Res)) e post, log = pre ++ e :: post → ∀ h, hitOf key e = some h →
    ((storeOf pre).get e.time key).isSome = true →
    ∃ start n, windowOf (windowLength h.caller.2) (countedTimes key h.caller.2 pre) =
      some (start, n) ∧ e.time < start + windowLength h.caller.2

/-- An answered increment splits the log, and the increments before it are those of the log before
it. -/
theorem hits_split {key : String} {log : List (Entry (Op K) Res)}
    {pre post : List (Hit (ℕ × Branch))} {h : Hit (ℕ × Branch)}
    (hsplit : hits key log = pre ++ h :: post) :
    ∃ before e after, log = before ++ e :: after ∧ hitOf key e = some h ∧ hits key before = pre := by
  obtain ⟨log₁, log₂, rfl, hpre, hpost⟩ := List.filterMap_eq_append_iff.mp hsplit
  obtain ⟨gap, e, after, rfl, hgap, he, -⟩ := List.filterMap_eq_cons_iff.mp hpost
  refine ⟨log₁ ++ gap, e, after, by simp, he, ?_⟩
  rw [hits, List.filterMap_append, hpre, List.filterMap_eq_nil_iff.mpr hgap, List.append_nil]

/-- An entry that records an answered increment splits the increments. -/
theorem hits_of_split {key : String} {before after : List (Entry (Op K) Res)}
    {e : Entry (Op K) Res} {h : Hit (ℕ × Branch)} (he : hitOf key e = some h) :
    hits key (before ++ e :: after) = hits key before ++ h :: hits key after := by
  rw [hits, List.filterMap_append, List.filterMap_cons, he]
  rfl

/-- A key answers 1 exactly to the increments that find it absent. -/
def AnswersOne (key : String) (log : List (Entry (Op K) Res)) : Prop :=
  ∀ (pre : List (Entry (Op K) Res)) e post, log = pre ++ e :: post → ∀ h, hitOf key e = some h →
    (h.count ≠ 1 ↔ ((storeOf pre).get e.time key).isSome = true)

/-- Where the key answers so, its increments are undisturbed exactly if their windows are apart. -/
theorem undisturbed_iff {key : String} {log : List (Entry (Op K) Res)} (h : AnswersOne key log) :
    Undisturbed Prod.snd windowLength (hits key log) ↔ WindowsApart key log := by
  constructor
  · rintro hund pre e post rfl g he hpresent
    obtain ⟨start, n, hw, hin⟩ :=
      hund _ g _ (hits_of_split he) ((h pre e post rfl g he).mpr hpresent)
    exact ⟨start, n, hw, (hitOf_eq_some.mp he).1 ▸ hin⟩
  · intro hapart pre g post hsplit hne
    obtain ⟨before, e, after, rfl, he, rfl⟩ := hits_split hsplit
    obtain ⟨start, n, hw, hin⟩ :=
      hapart before e after rfl g he ((h before e after rfl g he).mp hne)
    exact ⟨start, n, hw, (hitOf_eq_some.mp he).1 ▸ hin⟩

section Runs

variable [Field K] [LinearOrder K] [FloorRing K] {d : Deployment K} {w : State K}

/-- An answered increment is answered 1 exactly if it finds the key absent. -/
theorem count_ne_one_iff {s : Store String} (hs : s.Positive) {key : String} {now : ℕ} {count : ℤ}
    (h : answer now s (.increment key) = .value count) :
    count ≠ 1 ↔ (s.get now key).isSome = true := by
  rcases increment_cases h with ⟨hget, rfl⟩ | ⟨m, e, hget, rfl⟩
  · simp [hget]
  · have hpos := hs key m e (Store.eq_some_of_get hget)
    have hne : m + 1 ≠ 1 := by omega
    simp [hget, hne]

/-- In every run in which the store answers, every key answers 1 exactly to the increments that find
it absent. -/
theorem answersOne_of_run (hrun : d.system.Run StoreAnswers start w) (key : String) :
    AnswersOne key w.log := by
  intro pre e post hsplit h hhit
  obtain ⟨-, -, hevent⟩ := hitOf_eq_some.mp hhit
  exact count_ne_one_iff (positive_storeOf pre)
    ((replayed_of_run hrun).2 pre e post hsplit _ _ _ hevent).symm

end Runs

/-- The number of requests counted in the current window of a counter of the thread, the thread's
own request included. -/
def CountedAs (w : State K) (key : String) (i : ℕ) (branch : Branch) (n : ℕ) : Prop :=
  ∃ pre e post count, w.log = pre ++ e :: post ∧
    hitOf key e = some ⟨e.time, (i, branch), count⟩ ∧
    n = windowCount (windowLength branch) (countedTimes key branch (pre ++ [e]))

/-- The two rates of every request of a client on a path are those of its two windows, and a request
on a path that is not high-risk is scored exactly if its ten-second rate is above the threshold. -/
structure RatesAreWindows [Field K] (d : Deployment K) (w : State K) (c p : String) : Prop where
  answers : CountsWindows Prod.snd windowLength (hits (countKey c p) w.log)
  signals : ∀ i, isRequestOf w c p i = true → ∀ e ∈ w.events i, ∀ signal,
    carriedSignal e.op = some signal →
      (∃ n : ℕ, CountedAs w (countKey c p) i .first n ∧ signal.reqRate10s = .ofInt n) ∧
        ∃ n : ℕ, CountedAs w (countKey c p) i .second n ∧ signal.reqRate60s = .ofInt n
  escalation : d.properties.highRiskEndpoints.any (startsWith p) = false →
    ∀ i, isRequestOf w c p i = true →
      (((w.events i).any fun e => isScore e.op) = true →
        ∃ n : ℕ, CountedAs w (countKey c p) i .first n ∧
          d.properties.rateEscalationThreshold < n) ∧
      (handedOnUnscored (w.events i) = true →
        ∃ n : ℕ, CountedAs w (countKey c p) i .first n ∧
          (n : ℤ) ≤ d.properties.rateEscalationThreshold)

/-- Where the answers of a counter are the counts of its windows, so is the answer that a request
has got. -/
theorem countedAs_of_answers {w : State K} {key : String}
    (h : CountsWindows Prod.snd windowLength (hits key w.log)) {i : ℕ} {branch : Branch}
    {count : ℤ} (hmem : ⟨[branch], .redis (.increment key), .value count⟩ ∈ w.events i) :
    ∃ n : ℕ, CountedAs w key i branch n ∧ count = n := by
  obtain ⟨e, he, hthread, hevent⟩ := mem_eventsOf.mp hmem
  obtain ⟨pre, post, hsplit⟩ := List.append_of_mem he
  have hhit : hitOf key e = some ⟨e.time, (i, branch), count⟩ :=
    hitOf_eq_some.mpr ⟨rfl, hthread, hevent⟩
  have hcount := h _ _ _ (hsplit ▸ hits_of_split hhit)
  refine ⟨_, ⟨pre, e, post, count, hsplit, hhit, rfl⟩, hcount.trans ?_⟩
  rw [countedTimes, hits_concat, hhit, Option.toList_some]

/-- A request that asks for a score is high-risk by its ten-second count. -/
theorem risk_of_score [Field K] {platform : Platform K} {properties : SecurityProperties K}
    {exchange : Exchange} {m' : Program K Unit} {tr : Events K} {e : Event (Op K) Res} {c : String}
    (h : Progress platform properties exchange m' tr) (he : e ∈ tr) (hop : isScore e.op = true)
    (hc : resolveClientIp exchange = some c) : ∃ count,
      ⟨[.first], .redis (.increment (countKey c exchange.path)), .value count⟩ ∈ tr ∧
        isHighRisk properties exchange.path count = true := by
  obtain ⟨path, op, reply⟩ := e
  cases op with
  | postScore signal =>
    obtain ⟨clientIp, claims, _, rate10s, _, _, signal', rest, hclient, hcounted, hroute, hmem, -⟩ :=
      routed_of_scoring h he trivial
    obtain rfl : clientIp = c := Option.some.inj (hclient.symm.trans hc)
    refine ⟨rate10s, hcounted.first, ?_⟩
    cases hroute with
    | waiting => simp at hmem
    | direct _ hchain => simpa using hchain.1.subset (List.mem_map_of_mem hmem)
    | undecided hrisk => exact hrisk
    | enforced hrisk => exact hrisk
  | _ => simp [isScore] at hop

section Runs

variable [Field K] [LinearOrder K] [FloorRing K] {d : Deployment K} {w : State K}

/-- The rates are right in exactly the runs in which no answered increment finds its key present
outside an open window of its own length. -/
theorem ratesAreWindows_iff (hrun : d.system.Run StoreAnswers start w) (c p : String) :
    RatesAreWindows d w c p ↔ WindowsApart (countKey c p) w.log := by
  obtain ⟨hlives, hsorted⟩ := lives_of_run hrun c p
  have hanswers : CountsWindows Prod.snd windowLength (hits (countKey c p) w.log) ↔
      Undisturbed Prod.snd windowLength (hits (countKey c p) w.log) :=
    hlives.countsWindows_iff hsorted fun _ => rfl
  rw [undisturbed_iff (answersOne_of_run hrun (countKey c p))] at hanswers
  refine ⟨fun h => hanswers.mp h.answers, fun h => ?_⟩
  have hcounts := hanswers.mpr h
  refine ⟨hcounts, fun i hi e he signal hsignal => ?_, fun hspelt i hi => ⟨fun hscore => ?_,
    fun hunscored => ?_⟩⟩
  · obtain ⟨exchange, hlabel, hc, rfl⟩ := isRequestOf_eq_true.mp hi
    obtain ⟨m', hprogress⟩ := progress hrun hlabel
    obtain ⟨clientIp, claims, auth, rate10s, rate60s, failStreak, clocks, buffers, bodyString,
      hclient, -, -, hcounted, -, rfl⟩ := signal_of_carried hprogress he hsignal
    obtain rfl : clientIp = c := Option.some.inj (hclient.symm.trans hc)
    obtain ⟨n, hn, rfl⟩ := countedAs_of_answers hcounts hcounted.first
    obtain ⟨n', hn', rfl⟩ := countedAs_of_answers hcounts hcounted.second
    exact ⟨⟨n, hn, rfl⟩, n', hn', rfl⟩
  · obtain ⟨exchange, hlabel, hc, rfl⟩ := isRequestOf_eq_true.mp hi
    obtain ⟨m', hprogress⟩ := progress hrun hlabel
    obtain ⟨e, he, hop⟩ := List.any_eq_true.mp hscore
    obtain ⟨count, hcount, hrisk⟩ := risk_of_score hprogress he hop hc
    obtain ⟨n, hn, rfl⟩ := countedAs_of_answers hcounts hcount
    exact ⟨n, hn, by simpa [isHighRisk, hspelt] using hrisk⟩
  · obtain ⟨exchange, hlabel, hc, rfl⟩ := isRequestOf_eq_true.mp hi
    obtain ⟨clientIp, count, hclient, hcount, hle⟩ :=
      count_of_unscored hrun hlabel hspelt hunscored
    obtain rfl : clientIp = c := Option.some.inj (hclient.symm.trans hc)
    obtain ⟨n, hn, rfl⟩ := countedAs_of_answers hcounts hcount
    exact ⟨n, hn, hle⟩

end Runs

/-- A run with two requests of a client, whose second increments come when the window of the first ones is
over. -/
def slowRegistrations : State ℚ :=
  sample.system.after
    ([.spawn (.request (sampleRequest "/api/auth/register" "10.0.0.1")),
      .spawn (.request (sampleRequest "/api/auth/register" "10.0.0.1"))] ++
      callTop 1 0 sampleEnv ++ callTop 1 1 sampleEnv ++
      [.call 0 [.first] sampleEnv, .call 0 [.first] sampleEnv, .call 1 [.first] sampleEnv, .tick 10000,
       .call 0 [.second] sampleEnv, .call 0 [.second] sampleEnv, .call 1 [.second] sampleEnv,
       .call 0 [.third] sampleEnv, .call 0 [.third] sampleEnv,
       .call 1 [.third] sampleEnv, .call 1 [.third] sampleEnv,
       .join 0 [], .join 1 []] ++
      callTop 4 0 sampleEnv ++ callTop 4 1 sampleEnv) start

/-- Their rates are right: each increment of the second request finds the key in the window that the first
request has opened. -/
theorem slowRegistrations_counted :
    RatesAreWindows sample slowRegistrations "10.0.0.1" "/api/auth/register" := by
  obtain ⟨hrun, hhits⟩ : sample.system.Run StoreAnswers start slowRegistrations ∧
      hits (countKey "10.0.0.1" "/api/auth/register") slowRegistrations.log =
        [⟨0, (0, .first), 1⟩, ⟨0, (1, .first), 2⟩, ⟨10000, (0, .second), 1⟩,
          ⟨10000, (1, .second), 2⟩] :=
    System.Run.after_and ⟨rfl, rfl⟩ (by decide)
  refine (ratesAreWindows_iff hrun _ _).mpr ((undisturbed_iff (answersOne_of_run hrun _)).mp ?_)
  rw [hhits]
  intro pre h post hsplit hne
  rcases pre with _ | ⟨_, _ | ⟨_, _ | ⟨_, _ | ⟨_, rest⟩⟩⟩⟩ <;>
    simp only [List.nil_append, List.cons_append, List.cons.injEq] at hsplit
  · obtain ⟨rfl, -⟩ := hsplit
    exact absurd rfl hne
  · obtain ⟨rfl, rfl, -⟩ := hsplit
    exact ⟨0, 1, rfl, by decide⟩
  · obtain ⟨-, -, rfl, -⟩ := hsplit
    exact absurd rfl hne
  · obtain ⟨rfl, rfl, rfl, rfl, -⟩ := hsplit
    exact ⟨10000, 1, rfl, by decide⟩
  · simp at hsplit

/-- In a run with one request, its rate of the last minute is two, and its window has one. -/
theorem registration_counted_twice :
    sample.system.Run StoreAnswers start registration ∧
      registration.labels = [.request (sampleRequest "/api/auth/register" "10.0.0.1")] ∧
      (∃ e ∈ registration.events 0, ∃ signal, carriedSignal e.op = some signal ∧
        signal.reqRate60s = .ofInt 2) ∧
      ¬ RatesAreWindows sample registration "10.0.0.1" "/api/auth/register" := by
  have hmem : ∃ e ∈ registration.events 0, ∃ signal, carriedSignal e.op = some signal ∧
      signal.reqRate60s = .ofInt 2 := by
    have hany : (registration.events 0).any (fun e => (carriedSignal e.op).any fun signal =>
        decide (signal.reqRate60s = .ofInt 2)) = true := by decide +kernel
    obtain ⟨e, he, hsignal⟩ := List.any_eq_true.mp hany
    obtain ⟨signal, hcarried, htwo⟩ := (Option.any_eq_true _ _).mp hsignal
    exact ⟨e, he, signal, hcarried, of_decide_eq_true htwo⟩
  refine ⟨System.Run.after rfl (by decide), rfl, hmem, fun h => ?_⟩
  obtain ⟨e, he, signal, hsignal, htwo⟩ := hmem
  obtain ⟨-, n, ⟨pre, e', post, count, hsplit, hhit, rfl⟩, hn⟩ :=
    h.signals 0 (by decide +kernel) e he signal hsignal
  have hhits : hits (countKey "10.0.0.1" "/api/auth/register") registration.log =
      [⟨0, (0, .first), 1⟩, ⟨0, (0, .second), 2⟩] := rfl
  rw [hsplit, hits_of_split hhit] at hhits
  have hone : countedTimes (countKey "10.0.0.1" "/api/auth/register") .second (pre ++ [e']) =
      [0] := by
    rw [countedTimes, hits_concat, hhit]
    rcases hpre : hits (countKey "10.0.0.1" "/api/auth/register") pre with _ | ⟨g, _ | ⟨g', rest⟩⟩
    · simp [hpre] at hhits
    · simp only [hpre, List.cons_append, List.nil_append, List.cons.injEq, Hit.mk.injEq] at hhits
      obtain ⟨rfl, ⟨htime, -, rfl⟩, -⟩ := hhits
      simp [timesOf, htime]
    · simp [hpre] at hhits
  rw [hone, htwo] at hn
  exact absurd hn (by decide +kernel)

end ApiFirewall.Guarantees
