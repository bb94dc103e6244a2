import ApiFirewall.Guarantees.RateWindows
import Mathlib.Tactic.IntervalCases

/-!
# Streaks of failed authentication

A streak should count the failed authentications of an identity since its last success, and lapse
fifteen minutes after it was last extended. Failures are the requests turned away for their
credentials and the logins that the login service does not accept; successes are accepted tokens
and accepted logins. The gateway counts something else: every request that it does not turn away.
The two agree in the runs in which every request is a login that is not accepted.
-/

namespace ApiFirewall.Guarantees

open ApiFirewall.Gateway ApiFirewall.Gateway.ZeroTrustFilter ApiFirewall.Gateway.RedisStateService
open ApiFirewall.KeyValue ApiFirewall.Reactive Deployment

variable {K : Type}

/-- The failures of an identity since its last success, and when they lapse. -/
inductive Streak where
  | ended
  | running (failures : ℕ) (deadline : Option ℕ)
  deriving DecidableEq, Repr

namespace Streak

/-- How many failures there are. -/
def failures : Streak → ℕ
  | ended => 0
  | running n _ => n

/-- One more failure at an instant. -/
def fail (now : ℕ) : Streak → Streak
  | ended => running 1 none
  | running n deadline =>
    if deadline.any fun t => decide (t ≤ now) then running 1 none else running (n + 1) deadline

/-- A streak that has not lapsed is extended by fifteen minutes. -/
def extend (now : ℕ) : Streak → Streak
  | ended => ended
  | running n deadline =>
    if deadline.any fun t => decide (t ≤ now) then running n deadline
    else running n (some (now + minutes 15))

/-- A failure adds at most one. -/
theorem failures_fail_le (now : ℕ) (s : Streak) : (s.fail now).failures ≤ s.failures + 1 := by
  cases s with
  | ended => exact Nat.le_refl _
  | running n deadline =>
    by_cases h : deadline.any fun t => decide (t ≤ now) <;> simp [fail, failures, h]

/-- An extension adds none. -/
@[simp] theorem failures_extend (now : ℕ) (s : Streak) : (s.extend now).failures = s.failures := by
  cases s with
  | ended => rfl
  | running n deadline =>
    by_cases h : deadline.any fun t => decide (t ≤ now) <;> simp [extend, failures, h]

/-- The cell that stores a streak. -/
def cell : Streak → Option Cell
  | ended => none
  | running n deadline => some ⟨.int n, deadline⟩

/-- A streak has lapsed exactly if its cell is no longer visible. -/
private theorem get_cell {s : Store String} {key : String} {n : ℕ} {deadline : Option ℕ}
    (now : ℕ) (h : s key = (running n deadline).cell) : s.get now key =
      if deadline.any fun t => decide (t ≤ now) then none else some ⟨.int n, deadline⟩ := by
  cases deadline with
  | none => simp [Store.get, h, cell, Cell.live]
  | some t =>
    by_cases hle : t ≤ now
    · simp [Store.get, h, cell, Cell.live, hle]
    · simp [Store.get, h, cell, Cell.live, hle, Nat.lt_of_not_le hle]

/-- An increment of a stored streak stores one more failure, and answers how many there are. -/
theorem increment_cell {s : Store String} {key : String} {now : ℕ} {streak : Streak}
    (h : s key = streak.cell) (hmax : (streak.failures : ℤ) < Store.maxCounter) :
    answer now s (.increment key) = .value ((streak.fail now).failures : ℤ) ∧
      (s.exec now (.increment key)).2 key = (streak.fail now).cell := by
  cases streak with
  | ended =>
    have hget : s.get now key = none := by simp [Store.get, h, cell]
    simp [answer, Store.exec, hget, fail, failures, cell]
  | running n deadline =>
    have hget := get_cell now h
    unfold fail
    split at hget
    · rename_i hlapsed
      simp [answer, Store.exec, hget, hlapsed, failures, cell]
    · rename_i hruns
      simp only [failures] at hmax
      simp [answer, Store.exec, hget, hruns, failures, cell, hmax]

/-- An expiry of a stored streak stores the extended streak. -/
theorem expire_cell {s : Store String} {key : String} {now : ℕ} {streak : Streak}
    (h : s key = streak.cell) :
    (s.exec now (.expire key (minutes 15))).2 key = (streak.extend now).cell := by
  have hpos : minutes 15 ≠ 0 := by decide
  cases streak with
  | ended =>
    have hget : s.get now key = none := by simp [Store.get, h, cell]
    simp [Store.exec, hget, extend, h]
  | running n deadline =>
    have hget := get_cell now h
    unfold extend
    split at hget
    · rename_i hlapsed
      simp [Store.exec, hget, hlapsed, h]
    · rename_i hruns
      simp [Store.exec, hget, hruns, hpos, cell]

end Streak

/-- The path of logins. -/
def loginPath : String := "/api/auth/login"

/-- What an entry says about authentication: whose it is, and whether it succeeded. A login counts
where its streak is incremented, and the login service says for each thread whether it succeeds. -/
def authOutcome (accepts : ℕ → Bool) (labels : List (Label K)) (e : Entry (Op K) Res) :
    Option (String × Bool) :=
  (requestAt labels e.thread).bind fun exchange =>
    (resolveClientIp exchange).bind fun clientIp =>
      match e.event with
      | ⟨_, .parseSignedClaims _, .value (.claims c)⟩ => some (identityKey (some c) clientIp, true)
      | ⟨_, .setStatusCode 401, _⟩ => some (clientIp, false)
      | ⟨_, .redis (.increment key), _⟩ =>
        if exchange.path = loginPath ∧ key = failstreakKey clientIp then
          some (clientIp, accepts e.thread)
        else none
      | _ => none

/-- The entry extends the streak of an identity. -/
def extendsStreak (identity : String) (e : Entry (Op K) Res) : Bool :=
  match e.event.op with
  | .redis (.expire key _) => key = failstreakKey identity
  | _ => false

/-- The streak of an identity after one more entry. -/
def streakStep (accepts : ℕ → Bool) (labels : List (Label K)) (identity : String)
    (s : Streak) (e : Entry (Op K) Res) : Streak :=
  match authOutcome accepts labels e with
  | some (who, success) =>
    if who = identity then (if success then .ended else s.fail e.time) else s
  | none => if extendsStreak identity e then s.extend e.time else s

/-- The streak of an identity after a log. -/
def streakOf (accepts : ℕ → Bool) (labels : List (Label K)) (identity : String)
    (log : List (Entry (Op K) Res)) : Streak :=
  log.foldl (streakStep accepts labels identity) .ended

/-- One more entry is one more step. -/
theorem streakOf_concat (accepts : ℕ → Bool) (labels : List (Label K)) (identity : String)
    (log : List (Entry (Op K) Res)) (e : Entry (Op K) Res) :
    streakOf accepts labels identity (log ++ [e]) =
      streakStep accepts labels identity (streakOf accepts labels identity log) e := by
  simp [streakOf]

/-- The claims that a request was admitted with. -/
def claimsOf (events : Events K) : Option Claims :=
  events.findSome? fun
    | ⟨_, .parseSignedClaims _, .value (.claims c)⟩ => some c
    | _ => none

/-- The streak in every signal is the streak of the request's identity when the request is
counted. -/
def StreaksCountFailures (accepts : ℕ → Bool) (w : State K) : Prop :=
  ∀ (i : ℕ) exchange clientIp e signal, w.labels[i]? = some (.request exchange) →
    resolveClientIp exchange = some clientIp → e ∈ w.events i →
    carriedSignal e.op = some signal →
    ∃ (pre : List (Entry (Op K) Res)) (a : Entry (Op K) Res) (post : List (Entry (Op K) Res)),
      w.log = pre ++ a :: post ∧ a.thread = i ∧
      a.event.op = .redis (.increment (failstreakKey
        (identityKey (claimsOf (w.events i)) clientIp))) ∧
      signal.failedAuthStreak = (streakOf accepts w.labels
        (identityKey (claimsOf (w.events i)) clientIp) (pre ++ [a])).failures

/-- Every increment of a streak is a failure of its identity, and nothing else changes a streak:
there is no other failure, and no success of an identity that has failed. -/
structure OnlyFailuresCount (accepts : ℕ → Bool) (w : State K) : Prop where
  counted : ∀ e ∈ w.log, ∀ identity,
    e.event.op = .redis (.increment (failstreakKey identity)) →
      authOutcome accepts w.labels e = some (identity, false)
  uncounted : ∀ pre e post, w.log = pre ++ e :: post → ∀ identity success,
    authOutcome accepts w.labels e = some (identity, success) →
      e.event.op ≠ .redis (.increment (failstreakKey identity)) →
        success = true ∧ streakOf accepts w.labels identity pre = .ended

/-- Entries that do not name a key leave its cell as it is. -/
private theorem storeOf_concat_ne {log : List (Entry (Op K) Res)} {e : Entry (Op K) Res}
    {key : String} (h : ∀ cmd, e.event.op = .redis cmd → cmd.key ≠ key) :
    storeOf (log ++ [e]) key = storeOf log key := by
  by_cases hredis : ∃ cmd, e.event.op = .redis cmd
  · obtain ⟨cmd, hop⟩ := hredis
    rw [storeOf_concat_redis log hop]
    exact Store.exec_other (h cmd hop)
  · rw [storeOf_concat_other log fun cmd hop => hredis ⟨cmd, hop⟩]

/-- No streak of the run is longer than a signal can tell. -/
def StreaksFit (accepts : ℕ → Bool) (w : State K) : Prop :=
  ∀ identity pre, pre <+: w.log → (streakOf accepts w.labels identity pre).failures < 2 ^ 31

/-- Streaks that fit are counted. -/
private theorem failures_lt_maxCounter {accepts : ℕ → Bool} {w : State K}
    (hfit : StreaksFit accepts w) (identity : String)
    {pre : List (Entry (Op K) Res)} (hpre : pre <+: w.log) :
    ((streakOf accepts w.labels identity pre).failures : ℤ) < Store.maxCounter := by
  have := hfit identity pre hpre
  unfold Store.maxCounter
  omega

/-- A streak has at most one failure for each entry. -/
theorem failures_le_length (accepts : ℕ → Bool) (labels : List (Label K)) (identity : String)
    (log : List (Entry (Op K) Res)) :
    (streakOf accepts labels identity log).failures ≤ log.length := by
  induction log using List.reverseRecOn with
  | nil => exact Nat.le_refl 0
  | append_singleton log e ih =>
    rw [streakOf_concat, List.length_append, List.length_singleton]
    unfold streakStep
    split
    · split
      · split
        · exact Nat.zero_le _
        · exact (Streak.failures_fail_le e.time _).trans (Nat.add_le_add_right ih 1)
      · omega
    · split
      · rw [Streak.failures_extend]
        omega
      · omega

/-- The streaks of a run of fewer calls fit. -/
theorem streaksFit_of_length {accepts : ℕ → Bool} {w : State K}
    (h : w.log.length < 2 ^ 31) : StreaksFit accepts w := fun identity pre hpre =>
  Nat.lt_of_le_of_lt ((failures_le_length accepts w.labels identity pre).trans hpre.length_le) h

/-- Only a parsed token, a rejection for credentials and a counted login say something about
authentication. -/
private theorem authOutcome_eq_some {accepts : ℕ → Bool} {labels : List (Label K)}
    {e : Entry (Op K) Res} {who : String} {success : Bool}
    (h : authOutcome accepts labels e = some (who, success)) :
    ∃ exchange clientIp, labels[e.thread]? = some (.request exchange) ∧
      resolveClientIp exchange = some clientIp ∧
      ((∃ token, e.event.op = .parseSignedClaims token) ∨ e.event.op = .setStatusCode 401 ∨
        (exchange.path = loginPath ∧ who = clientIp ∧
          e.event.op = .redis (.increment (failstreakKey clientIp)))) := by
  obtain ⟨exchange, hexchange, h⟩ := Option.bind_eq_some_iff.mp h
  obtain ⟨clientIp, hresolved, h⟩ := Option.bind_eq_some_iff.mp h
  refine ⟨exchange, clientIp, requestAt_eq_some.mp hexchange, hresolved, ?_⟩
  obtain ⟨time, thread, event⟩ := e
  simp only at h ⊢
  split at h
  · exact .inl ⟨_, rfl⟩
  · exact .inr (.inl rfl)
  · split at h
    · rename_i hlogin
      rw [Option.some.injEq, Prod.mk.injEq] at h
      exact .inr (.inr ⟨hlogin.1, h.1.symm, by rw [hlogin.2]⟩)
    · simp at h
  · simp at h

/-- An expiry says nothing about authentication. -/
private theorem authOutcome_of_expire {accepts : ℕ → Bool} {labels : List (Label K)}
    {e : Entry (Op K) Res} {key : String} {ttl : ℕ} (h : e.event.op = .redis (.expire key ttl)) :
    authOutcome accepts labels e = none := by
  refine Option.eq_none_iff_forall_ne_some.mpr fun outcome houtcome => ?_
  obtain ⟨exchange, clientIp, -, -, hop⟩ := authOutcome_eq_some houtcome
  simp [h] at hop

/-- A counted request is a login. -/
private theorem login_of_counted {accepts : ℕ → Bool} {w : State K}
    (hfailures : OnlyFailuresCount accepts w) {i : ℕ} {exchange : Exchange}
    (hi : w.labels[i]? = some (.request exchange)) {identity : String} {path : List Branch}
    {r : Signal ℤ} (hmem : ⟨path, .redis (.increment (failstreakKey identity)), r⟩ ∈ w.events i) :
    exchange.path = loginPath := by
  obtain ⟨a, ha, hthread, hevent⟩ := mem_eventsOf.mp hmem
  obtain ⟨exchange', clientIp, hlabel, -, hop⟩ :=
    authOutcome_eq_some (hfailures.counted a ha identity (congrArg Event.op hevent))
  rw [hthread, hi, Option.some.injEq, Label.request.injEq] at hlabel
  subst hlabel
  rcases hop with ⟨token, hop⟩ | hop | ⟨hlogin, -⟩
  · simp [hevent] at hop
  · simp [hevent] at hop
  · exact hlogin

section Runs

variable [Field K] [LinearOrder K] [FloorRing K] {d : Deployment K} {w : State K}
  {accepts : ℕ → Bool}

/-- A command of a thread touches a streak only to increment it or to extend its life. -/
theorem streak_of_labelCall {l : Label K} {cmd : Command String} (h : d.LabelCall l (.redis cmd))
    (identity : String) : cmd.key ≠ failstreakKey identity ∨
      cmd = .increment (failstreakKey identity) ∨
      cmd = .expire (failstreakKey identity) (minutes 15) := by
  cases l with
  | message source payload =>
    cases h with
    | block => exact .inl (by simp [Command.key])
  | request exchange =>
    cases h with
    | @streak clientIp claims =>
      by_cases hsame : identityKey claims clientIp = identity
      · exact .inr (.inl (hsame ▸ rfl))
      · exact .inl (by simp [Command.key, hsame])
    | @extend clientIp claims =>
      by_cases hsame : identityKey claims clientIp = identity
      · exact .inr (.inr (hsame ▸ rfl))
      · exact .inl (by simp [Command.key, hsame])
    | _ => exact .inl (by simp [Command.key])

/-- In a run that counts failures only, an entry is a failure exactly if it increments the streak,
and extends it exactly if it extends the life of its key. -/
theorem streakStep_of_split {P : Action Stimulus (Env K) → Prop}
    (hrun : d.system.Run P start w) (hfailures : OnlyFailuresCount accepts w)
    {pre : List (Entry (Op K) Res)} {e : Entry (Op K) Res} {post : List (Entry (Op K) Res)}
    (hsplit : w.log = pre ++ e :: post) (identity : String) :
    (e.event.op = .redis (.increment (failstreakKey identity)) ∧
      streakOf accepts w.labels identity (pre ++ [e]) =
        (streakOf accepts w.labels identity pre).fail e.time) ∨
    (e.event.op = .redis (.expire (failstreakKey identity) (minutes 15)) ∧
      streakOf accepts w.labels identity (pre ++ [e]) =
        (streakOf accepts w.labels identity pre).extend e.time) ∨
    ((∀ cmd, e.event.op = .redis cmd → cmd.key ≠ failstreakKey identity) ∧
      streakOf accepts w.labels identity (pre ++ [e]) = streakOf accepts w.labels identity pre) := by
  have he : e ∈ w.log := by simp [hsplit]
  obtain ⟨l, -, hcall⟩ := labelCall_of_log hrun he
  rw [streakOf_concat, streakStep]
  by_cases hincrement : e.event.op = .redis (.increment (failstreakKey identity))
  · refine .inl ⟨hincrement, ?_⟩
    simp [hfailures.counted e he identity hincrement]
  by_cases hexpire : e.event.op = .redis (.expire (failstreakKey identity) (minutes 15))
  · refine .inr (.inl ⟨hexpire, ?_⟩)
    simp [authOutcome_of_expire hexpire, extendsStreak, hexpire]
  have hkey : ∀ cmd, e.event.op = .redis cmd → cmd.key ≠ failstreakKey identity := by
    intro cmd hop
    rw [hop] at hcall hincrement hexpire
    rcases streak_of_labelCall hcall identity with hne | rfl | rfl
    · exact hne
    · exact absurd rfl hincrement
    · exact absurd rfl hexpire
  refine .inr (.inr ⟨hkey, ?_⟩)
  cases houtcome : authOutcome accepts w.labels e with
  | none =>
    have hextends : extendsStreak identity e = false := by
      unfold extendsStreak
      split
      · rename_i key ttl hop
        simpa [Command.key] using hkey _ hop
      · rfl
    simp [hextends]
  | some outcome =>
    obtain ⟨who, success⟩ := outcome
    by_cases hwho : who = identity
    · subst hwho
      obtain ⟨rfl, hended⟩ := hfailures.uncounted pre e post hsplit _ _ houtcome hincrement
      simp [hended]
    · simp [hwho]

/-- In a run that counts failures only, the store holds the streak of every identity. -/
theorem storeOf_failstreak {P : Action Stimulus (Env K) → Prop} (hrun : d.system.Run P start w)
    (hfailures : OnlyFailuresCount accepts w) (hfit : StreaksFit accepts w) (identity : String)
    {pre : List (Entry (Op K) Res)} (hpre : pre <+: w.log) :
    storeOf pre (failstreakKey identity) = (streakOf accepts w.labels identity pre).cell := by
  induction pre using List.reverseRecOn with
  | nil => rfl
  | append_singleton pre e ih =>
    have hshort : pre <+: w.log := (List.prefix_append pre [e]).trans hpre
    obtain ⟨post, hpost⟩ := hpre
    have hsplit : w.log = pre ++ e :: post := by simp [← hpost]
    rcases streakStep_of_split hrun hfailures hsplit identity with
      ⟨hop, hstep⟩ | ⟨hop, hstep⟩ | ⟨hop, hstep⟩
    · rw [hstep, storeOf_concat_redis pre hop]
      exact (Streak.increment_cell (ih hshort) (failures_lt_maxCounter hfit identity hshort)).2
    · rw [hstep, storeOf_concat_redis pre hop]
      exact Streak.expire_cell (ih hshort)
    · rw [hstep, storeOf_concat_ne hop]
      exact ih hshort

/-- In a run that counts failures only, every increment of a streak is answered the number of
failures. -/
theorem answer_of_failstreak (hrun : d.system.Run StoreAnswers start w)
    (hfailures : OnlyFailuresCount accepts w) (hfit : StreaksFit accepts w) {identity : String}
    {i : ℕ} {path : List Branch} {r : Signal ℤ}
    (hmem : ⟨path, .redis (.increment (failstreakKey identity)), r⟩ ∈ w.events i) :
    ∃ pre a post, w.log = pre ++ a :: post ∧ a.thread = i ∧
      a.event.op = .redis (.increment (failstreakKey identity)) ∧
      r = .value ((streakOf accepts w.labels identity (pre ++ [a])).failures : ℤ) := by
  obtain ⟨a, ha, hthread, hevent⟩ := mem_eventsOf.mp hmem
  obtain ⟨pre, post, hsplit⟩ := List.append_of_mem ha
  have hinitial : pre <+: w.log := hsplit ▸ List.prefix_append pre (a :: post)
  have hop := congrArg Event.op hevent
  refine ⟨pre, a, post, hsplit, hthread, hop, ?_⟩
  rw [(replayed_of_run hrun).2 pre a post hsplit _ _ _ hevent]
  rcases streakStep_of_split hrun hfailures hsplit identity with
    ⟨-, hstep⟩ | ⟨hexpire, -⟩ | ⟨hother, -⟩
  · rw [hstep]
    exact (Streak.increment_cell (storeOf_failstreak hrun hfailures hfit _ hinitial)
      (failures_lt_maxCounter hfit _ hinitial)).1
  · simp [hexpire] at hop
  · exact absurd rfl (hother _ hop)

/-- A request on a public path is admitted without claims. -/
theorem claimsOf_eq_none {P : Action Stimulus (Env K) → Prop}
    (hrun : d.system.Run P start w) {i : ℕ} {exchange : Exchange}
    (hi : w.labels[i]? = some (.request exchange)) (hpublic : exchange.path ∈ publicPaths) :
    claimsOf (w.events i) = none := by
  refine List.findSome?_eq_none_iff.mpr fun ev hev => ?_
  obtain ⟨e, he, hthread, rfl⟩ := mem_eventsOf.mp hev
  obtain ⟨l, hl, hcall⟩ := labelCall_of_log hrun he
  rw [hthread, hi, Option.some.injEq] at hl
  subst hl
  split
  · rename_i path token c hevent
    rw [hevent] at hcall
    cases hcall with
    | parse hprivate => exact absurd hpublic hprivate
  · rfl

/-- In every run that counts failures only, every signal carries the number of failures. -/
theorem streaks_count_failures (hrun : d.system.Run StoreAnswers start w)
    (hfailures : OnlyFailuresCount accepts w) (hfit : StreaksFit accepts w) :
    StreaksCountFailures accepts w := by
  intro i exchange clientIp ev signal hi hresolved hev hsignal
  obtain ⟨m', hprogress⟩ := progress hrun hi
  obtain ⟨clientIp', claims, auth, rate10s, rate60s, failStreak, clocks, buffers, bodyString,
    hclient, hauth, -, hcounted, -, rfl⟩ := signal_of_carried hprogress hev hsignal
  obtain rfl : clientIp' = clientIp := Option.some.inj (hclient.symm.trans hresolved)
  have hpublic : exchange.path ∈ publicPaths := by
    have hlogin : exchange.path = loginPath :=
      hcounted.third.elim (login_of_counted hfailures hi) fun h =>
        login_of_counted hfailures hi h.1
    simp [hlogin, loginPath, publicPaths]
  obtain rfl : claims = none := by
    cases hauth with
    | publicPath => rfl
    | token hprivate => exact absurd hpublic hprivate
  rw [claimsOf_eq_none hrun hi hpublic]
  rcases hcounted.third with hvalue | ⟨hempty, -⟩
  · obtain ⟨pre, a, post, hsplit, hthread, hop, hr⟩ :=
      answer_of_failstreak hrun hfailures hfit hvalue
    refine ⟨pre, a, post, hsplit, hthread, hop, ?_⟩
    have hinitial : pre ++ [a] <+: w.log := ⟨post, by simp [hsplit]⟩
    have hlt := hfit (identityKey none clientIp') _ hinitial
    rw [← toInt_of_lt (Int.natCast_nonneg _) (by omega), ← Signal.value.inj hr]
    rfl
  · obtain ⟨pre, a, post, -, -, -, hr⟩ := answer_of_failstreak hrun hfailures hfit hempty
    simp at hr

/-- A run in which every request is a login that is not accepted counts failures only. -/
theorem onlyFailuresCount_of_logins {P : Action Stimulus (Env K) → Prop}
    (hrun : d.system.Run P start w) (hlogins : ∀ (i : ℕ) exchange,
      w.labels[i]? = some (.request exchange) →
        exchange.path = loginPath ∧ accepts i = false) : OnlyFailuresCount accepts w := by
  have hpublic : loginPath ∈ publicPaths := by simp [loginPath, publicPaths]
  constructor
  · rintro ⟨time, thread, path, op, r⟩ he identity hop
    obtain ⟨l, hl, hcall⟩ := labelCall_of_log hrun he
    simp only at hop hl hcall
    subst hop
    cases l with
    | message source payload => exact absurd hcall (by rintro ⟨⟩)
    | request exchange =>
      obtain ⟨hpath, hfails⟩ := hlogins thread exchange hl
      generalize hkey : failstreakKey identity = key at hcall
      cases hcall with
      | count h => simp at hkey
      | @streak clientIp claims hresolved hclaims =>
        obtain rfl := hclaims (hpath ▸ hpublic)
        obtain rfl := failstreakKey_inj.mp hkey
        simp [authOutcome, requestAt_eq_some.mpr hl, hresolved, hpath, hfails, identityKey]
  · intro pre e post hsplit identity success houtcome hop
    obtain ⟨l, hl, hcall⟩ := labelCall_of_log hrun (e := e) (by simp [hsplit])
    obtain ⟨exchange, clientIp, hi, -, houtcome⟩ := authOutcome_eq_some houtcome
    rw [hi, Option.some.injEq] at hl
    subst hl
    have hpath := (hlogins e.thread exchange hi).1
    rcases houtcome with ⟨token, hparse⟩ | hstatus | ⟨-, rfl, hincrement⟩
    · rw [hparse] at hcall
      cases hcall with
      | parse hprivate => exact absurd (hpath ▸ hpublic) hprivate
    · rw [hstatus] at hcall
      cases hcall with
      | setStatusCode _ hprivate => exact absurd (hpath ▸ hpublic) (hprivate rfl)
    · exact absurd hincrement hop

end Runs

/-- A run in which a client fails to log in twice. -/
def failedLogins : State ℚ :=
  sample.system.after
    (.spawn (.request (sampleRequest "/api/auth/login" "10.0.0.1")) ::
      callTop 1 0 sampleEnv ++ callCounters true 0 sampleEnv ++ callTop 7 0 sampleEnv ++
      .spawn (.request (sampleRequest "/api/auth/login" "10.0.0.1")) ::
      callTop 1 1 sampleEnv ++ callCounters false 1 sampleEnv ++ callTop 7 1 sampleEnv) start

/-- Its signals count the failures. -/
theorem failedLogins_counted : StreaksCountFailures (fun _ => false) failedLogins := by
  have hrun : sample.system.Run StoreAnswers start failedLogins := System.Run.after rfl (by decide)
  refine streaks_count_failures hrun (onlyFailuresCount_of_logins hrun fun i exchange hi => ?_)
    (streaksFit_of_length (by decide))
  have hlabels : failedLogins.labels = [.request (sampleRequest "/api/auth/login" "10.0.0.1"),
      .request (sampleRequest "/api/auth/login" "10.0.0.1")] := rfl
  have hmem := List.mem_of_getElem? hi
  rw [hlabels] at hmem
  obtain rfl : exchange = sampleRequest "/api/auth/login" "10.0.0.1" := by simpa using hmem
  exact ⟨rfl, rfl⟩

/-- A run with one request, whose token is accepted. -/
def acceptedOrder : State ℚ :=
  sample.system.after
    (.spawn (.request { sampleRequest "/api/orders" "10.0.0.1" with
        headers := [("Authorization", "Bearer good")] }) ::
      callTop 2 0 sampleEnv ++ callCounters true 0 sampleEnv ++ callTop 4 0 sampleEnv) start

/-- Its signal carries a streak of one, and nobody has failed. -/
theorem acceptedOrder_counted :
    sample.system.Run StoreAnswers start acceptedOrder ∧
      ∀ accepts, ¬ StreaksCountFailures accepts acceptedOrder := by
  refine ⟨System.Run.after rfl (by decide), fun accepts h => ?_⟩
  obtain ⟨pre, a, post, hsplit, -, -, hone⟩ := h 0 _ "10.0.0.1" _ _
    (show acceptedOrder.labels[0]? = some (.request _) from rfl) rfl
    (List.mem_of_getElem? (show (acceptedOrder.events 0)[9]? = some _ from rfl)) rfl
  have hended : ∀ n ≤ 11, (streakOf accepts acceptedOrder.labels "alice"
      (acceptedOrder.log.take n)).failures = 0 := by
    intro n hn
    interval_cases n <;> rfl
  have hlength : pre.length + 1 ≤ 11 := by
    have hlog : acceptedOrder.log.length = 11 := rfl
    rw [hsplit, List.length_append, List.length_cons] at hlog
    omega
  have htake : acceptedOrder.log.take (pre.length + 1) = pre ++ [a] := by
    rw [hsplit, List.take_length_add_append]
    rfl
  have hzero := hended _ hlength
  rw [htake] at hzero
  have hone : (1 : ℤ) = (streakOf accepts acceptedOrder.labels "alice" (pre ++ [a])).failures := hone
  rw [hzero] at hone
  exact absurd hone (by decide)

end ApiFirewall.Guarantees
