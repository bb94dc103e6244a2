import ApiFirewall.Gateway.RequestCalls

/-!
# The counters of a request

A request counts in one phase, in which the calls of its three counters are merged. So a call on a
request counter is an increment that its window counter makes first, or the expiry that the same
counter sets after the answer 1.
-/

namespace ApiFirewall.Gateway.ZeroTrustFilter

open ApiFirewall.KeyValue ApiFirewall.Reactive

variable {K : Type}

/-- Preliminary calls do not count. -/
theorem Preliminary.not_counterCall {e : Event (Op K) Res} (h : Preliminary e) :
    ¬ CounterCall e.op := by
  obtain ⟨path, op, reply⟩ := e
  cases op with
  | redis c => cases c <;> first | exact h.elim | exact id
  | _ => exact id

/-- Calls after the publication do not count. -/
theorem Acting.not_counterCall {op : Op K} (h : Acting op) : ¬ CounterCall op := by
  cases op with
  | redis c => cases c <;> first | exact h.elim | exact id
  | _ => exact id

/-- A request has not counted yet, or its counting calls are those of the three counters, between
calls that do not count. -/
theorem counting_of_progress [Field K] {platform : Platform K} {properties : SecurityProperties K}
    {exchange : Exchange} {m' : Program K Unit} {tr : Events K}
    (h : Progress platform properties exchange m' tr) :
    (∀ e ∈ tr, ¬ CounterCall e.op) ∨ ∃ clientIp claims pre counts rest a b c,
      tr = pre ++ (counts ++ rest) ∧ Admitted exchange clientIp claims pre ∧
      Counting clientIp exchange.path claims counts a b c ∧ ∀ e ∈ rest, ¬ CounterCall e.op := by
  have hrejection : ∀ {status reason} {rej : Events K}, Follows (rejection status reason) rej m' →
      ∀ e ∈ rej, ¬ CounterCall e.op :=
    fun hrej => forall_of_isPrefix (fun op => ¬ CounterCall op) hrej.1
      (by simp [rejection, CounterCall])
  cases h with
  | refused href =>
    refine .inl fun e he => ?_
    cases href with
    | waiting hm hpre => exact (hpre e he).not_counterCall
    | unauthenticated hauth hrej =>
      rcases List.mem_append.mp he with hmem | hmem
      · cases hauth with
        | missing => simp at hmem
        | rejected =>
          obtain rfl := List.mem_singleton.mp hmem
          exact id
      · exact hrejection hrej e hmem
    | blocked hresolved hauth hrej =>
      rcases List.mem_append.mp he with hmem | hmem
      · exact (hauth.preliminary e hmem).not_counterCall
      · rcases List.mem_cons.mp hmem with rfl | hmem
        · exact id
        · exact hrejection hrej e hmem
  | @counting clientIp claims pre counts a b c hm hpre hcounts =>
    exact .inr ⟨clientIp, claims, pre, counts, [], a, b, c, by simp, hpre, hcounts, by simp⟩
  | @counted clientIp claims pre counts rest _ _ _ hm hpre hcounts hrest =>
    refine .inr ⟨clientIp, claims, pre, counts, rest, _, _, _, rfl, hpre, hcounts, fun e he => ?_⟩
    rcases hrest e he with hop | hop <;> simp [hop, CounterCall]
  | @published clientIp bodyString claims buffers pre counts pub rest _ _ _ _ signal hpre hcounts
      hsignal hpub hroute =>
    refine .inr ⟨clientIp, claims, pre, counts, _, _, _, _, rfl, hpre, hcounts, fun e he => ?_⟩
    rcases List.mem_cons.mp he with rfl | hmem
    · exact id
    · rcases List.mem_append.mp hmem with hmem | hmem
      · rcases hpub with ⟨r, -, rfl⟩ | ⟨s, r, rfl⟩ <;> simp [Event.top] at hmem <;>
          rcases hmem with rfl | rfl <;> exact id
      · exact (acting_of_routed hroute e hmem).not_counterCall

/-- The counters use the key of the client and path, and the key of the identity. -/
theorem key_of_counting {clientIp path : String} {claims : Option Claims} {counts : Events K}
    {a b c : Program K ℤ} (h : Counting clientIp path claims counts a b c) :
    ∀ e ∈ counts, ∀ cmd, e.op = .redis cmd →
      cmd.key = RedisStateService.countKey clientIp path ∨
      cmd.key = RedisStateService.failstreakKey (identityKey claims clientIp) := by
  have hwindow : ∀ window, (RedisStateService.incrementWindowCounter clientIp path window :
      Program K ℤ).Emits fun op => ∀ cmd, op = .redis cmd →
        cmd.key = RedisStateService.countKey clientIp path ∨
        cmd.key = RedisStateService.failstreakKey (identityKey claims clientIp) := by
    intro window
    refine Mono.emits_flatMap ⟨by rintro _ ⟨⟩; exact .inl rfl, fun _ => trivial⟩ fun count => ?_
    split
    · exact Mono.emits_onSignal ⟨by rintro _ ⟨⟩; exact .inl rfl, fun _ => trivial⟩
        fun s => by cases s <;> trivial
    · trivial
  refine h.emits (hwindow _) (hwindow _) (Mono.emits_onSignal ?_ fun s => by cases s <;> trivial)
  refine Mono.emits_flatMap ⟨by rintro _ ⟨⟩; exact .inr rfl, fun _ => trivial⟩ fun count => ?_
  exact Mono.emits_onSignal ⟨by rintro _ ⟨⟩; exact .inr rfl, fun _ => trivial⟩
    fun s => by cases s <;> trivial

/-- How long the window of a counter is, in milliseconds. -/
def windowLength : Branch → ℕ
  | .first => seconds 10
  | _ => seconds 60

/-- Calls at top level belong to no part of a `zip`. -/
theorem under_eq_nil_of_top {branch : Branch} {tr : Events K} (h : ∀ e ∈ tr, e.path = []) :
    under branch tr = [] := by
  refine List.filterMap_eq_nil_iff.mpr fun e he => ?_
  simp [Event.under?, h e he]

/-- A request that counts last is in its counting phase. -/
theorem counting_of_last [Field K] {platform : Platform K} {properties : SecurityProperties K}
    {exchange : Exchange} {m' : Program K Unit} {tr : Events K} {e : Event (Op K) Res}
    (h : Progress platform properties exchange m' (tr ++ [e])) (he : CounterCall e.op) :
    ∃ clientIp claims pre counts a b c, tr = pre ++ counts ∧
      Admitted exchange clientIp claims pre ∧
      Counting clientIp exchange.path claims (counts ++ [e]) a b c := by
  rcases counting_of_progress h with hnone |
    ⟨clientIp, claims, pre, counts, rest, a, b, c, htr, hpre, hcounts, hrest⟩
  · exact absurd he (hnone e (by simp))
  · rcases List.eq_nil_or_concat rest with rfl | ⟨rest', z, rfl⟩
    · rcases List.eq_nil_or_concat counts with rfl | ⟨counts', z, rfl⟩
      · have hmem : e ∈ pre := by
          rw [List.append_nil, List.append_nil] at htr
          simp [← htr]
        exact absurd he (hpre.preliminary e hmem).not_counterCall
      · rw [List.append_nil, List.concat_eq_append, ← List.append_assoc] at htr
        obtain ⟨rfl, hlast⟩ := List.append_inj' htr rfl
        obtain rfl := List.singleton_inj.mp hlast
        rw [List.concat_eq_append] at hcounts
        exact ⟨clientIp, claims, pre, counts', a, b, c, rfl, hpre, hcounts⟩
    · rw [List.concat_eq_append, ← List.append_assoc, ← List.append_assoc] at htr
      obtain rfl := List.singleton_inj.mp (List.append_inj' htr rfl).2
      exact absurd he (hrest e (by simp))

/-- The last call of a window counter is its increment, or the expiry that follows the answer 1. -/
theorem windowCall_of_last {key : String} {window : ℕ} {m' : Program K ℤ} {tr : Events K}
    {e : Event (Op K) Res} (h : WindowCalls key window m' (tr ++ [e])) :
    (tr = [] ∧ ∃ r, e = .top (.redis (.increment key)) r) ∨
      (tr = [.top (.redis (.increment key)) (.value 1)] ∧
        ∃ r, e = .top (.redis (.expire key window)) r) := by
  generalize hcalls : tr ++ [e] = calls at h
  cases h with
  | idle => simp at hcalls
  | counted r =>
    obtain ⟨rfl, he⟩ := List.append_inj' (hcalls.trans (show _ = [] ++ [_] from rfl)) rfl
    exact .inl ⟨rfl, r, List.singleton_inj.mp he⟩
  | started r =>
    obtain ⟨rfl, he⟩ := List.append_inj' (hcalls.trans (show _ = [_] ++ [_] from rfl)) rfl
    exact .inr ⟨rfl, r, List.singleton_inj.mp he⟩

/-- The calls of a branch before a call of the branch and with it. -/
theorem under_concat_branch (counts : Events K) (branch : Branch) (path : List Branch) (op : Op K)
    (r : Signal (Res op)) :
    under branch (counts ++ [⟨branch :: path, op, r⟩]) = under branch counts ++ [⟨path, op, r⟩] := by
  simp [under, Event.under?]

/-- The last command of a window counter is its increment, or the expiry that follows the answer
1. -/
theorem command_of_windowCalls {key : String} {window : ℕ} {m' : Program K ℤ} {tr : Events K}
    {path : List Branch} {cmd : Command String} {r : Signal cmd.Result}
    (h : WindowCalls key window m' (tr ++ [⟨path, .redis cmd, r⟩])) :
    path = [] ∧ ((cmd = .increment cmd.key ∧ tr = []) ∨
      (cmd = .expire cmd.key window ∧ tr = [.top (.redis (.increment cmd.key)) (.value 1)])) := by
  rcases windowCall_of_last h with ⟨hnil, r', heq⟩ | ⟨hone, r', heq⟩
  · simp only [Event.top, Event.mk.injEq, Op.redis.injEq] at heq
    obtain ⟨rfl, rfl, -⟩ := heq
    exact ⟨rfl, .inl ⟨rfl, hnil⟩⟩
  · simp only [Event.top, Event.mk.injEq, Op.redis.injEq] at heq
    obtain ⟨rfl, rfl, -⟩ := heq
    exact ⟨rfl, .inr ⟨rfl, hone⟩⟩

/-- All commands of a streak counter are about its key. -/
theorem key_of_streakCalls {key : String} {m' : Program K ℤ} {tr : Events K}
    (h : StreakCalls key m' tr) : ∀ e ∈ tr, ∀ cmd, e.op = .redis cmd → cmd.key = key := by
  cases h <;> simp [Event.top, Command.key]

/-- A call on a request counter is one of a window counter of the request, which has made no call
before an increment, and the increment that was answered 1 before an expiry. -/
theorem windowCall_of_key [Field K] {platform : Platform K} {properties : SecurityProperties K}
    {exchange : Exchange} {m' : Program K Unit} {tr : Events K} {path : List Branch}
    {cmd : Command String} {r : Signal cmd.Result}
    (h : Progress platform properties exchange m' (tr ++ [⟨path, .redis cmd, r⟩]))
    (hcall : CounterCall (.redis cmd : Op K))
    (hstreak : ∀ identity, cmd.key ≠ RedisStateService.failstreakKey identity) :
    ∃ branch, path = [branch] ∧ ((cmd = .increment cmd.key ∧ under branch tr = []) ∨
      (cmd = .expire cmd.key (windowLength branch) ∧
        under branch tr = [.top (.redis (.increment cmd.key)) (.value 1)])) := by
  obtain ⟨clientIp, claims, pre, counts, a, b, c, rfl, hpre, hcounts⟩ := counting_of_last h hcall
  have hunder : ∀ branch, under branch (pre ++ counts) = under branch counts := fun branch => by
    rw [under, List.filterMap_append, ← under, under_eq_nil_of_top hpre.top, List.nil_append, under]
  simp only [hunder]
  cases path with
  | nil => exact absurd rfl (hcounts.nested ⟨[], .redis cmd, r⟩ (by simp))
  | cons branch path' =>
    have hwindow : ∀ m₁, WindowCalls (RedisStateService.countKey clientIp exchange.path)
        (windowLength branch) m₁ (under branch (counts ++ [⟨branch :: path', .redis cmd, r⟩])) →
        ∃ branch', branch :: path' = [branch'] ∧
          ((cmd = .increment cmd.key ∧ under branch' counts = []) ∨
            (cmd = .expire cmd.key (windowLength branch') ∧
              under branch' counts = [.top (.redis (.increment cmd.key)) (.value 1)])) := by
      intro m₁ hcalls
      rw [under_concat_branch] at hcalls
      obtain ⟨rfl, hcommand⟩ := command_of_windowCalls hcalls
      exact ⟨branch, rfl, hcommand⟩
    cases branch with
    | first => exact hwindow a (incrementWindowCounter_trace hcounts.first)
    | second => exact hwindow b (incrementWindowCounter_trace hcounts.second)
    | third =>
      have hcalls := streakCalls_of_trace hcounts.third
      rw [under_concat_branch] at hcalls
      have hmem : ⟨path', .redis cmd, r⟩ ∈ under .third counts ++ [⟨path', .redis cmd, r⟩] :=
        List.mem_append_right _ (List.mem_singleton_self _)
      exact absurd (key_of_streakCalls hcalls _ hmem cmd rfl) (hstreak _)

/-- A window counter is incremented at most once. -/
private theorem WindowCalls.increment_unique {key k k' : String} {window : ℕ} {m' : Program K ℤ}
    {tr : Events K} (h : WindowCalls key window m' tr) {path path' : List Branch}
    {r r' : Signal ℤ} (hmem : ⟨path, .redis (.increment k), r⟩ ∈ tr)
    (hmem' : ⟨path', .redis (.increment k'), r'⟩ ∈ tr) : r = r' := by
  have hfirst : ∀ {path k r}, ⟨path, .redis (.increment k), r⟩ ∈ tr →
      ∃ r₀, tr.head? = some (.top (.redis (.increment key)) r₀) ∧ r = r₀ := by
    intro path k r hmem
    cases h with
    | idle => simp at hmem
    | counted r₀ =>
      simp only [List.mem_singleton, Event.top, Event.mk.injEq, Op.redis.injEq,
        Command.increment.injEq] at hmem
      obtain ⟨-, rfl, hr⟩ := hmem
      exact ⟨r₀, rfl, eq_of_heq hr⟩
    | started r₀ =>
      simp [Event.top] at hmem
      obtain ⟨-, rfl, hr⟩ := hmem
      exact ⟨.value 1, rfl, hr⟩
  obtain ⟨r₀, hhead, rfl⟩ := hfirst hmem
  obtain ⟨r₀', hhead', rfl⟩ := hfirst hmem'
  simpa [Event.top] using hhead.symm.trans hhead'

/-- A request increments each of its window counters at most once. -/
theorem increment_unique [Field K] {platform : Platform K} {properties : SecurityProperties K}
    {exchange : Exchange} {m' : Program K Unit} {tr : Events K} {branch : Branch} {k k' : String}
    {r r' : Signal ℤ} (h : Progress platform properties exchange m' tr) (hbranch : branch ≠ .third)
    (hmem : ⟨[branch], .redis (.increment k), r⟩ ∈ tr)
    (hmem' : ⟨[branch], .redis (.increment k'), r'⟩ ∈ tr) : r = r' := by
  rcases counting_of_progress h with hnone |
    ⟨clientIp, claims, pre, counts, rest, a, b, c, rfl, hpre, hcounts, hrest⟩
  · exact absurd trivial (hnone _ hmem)
  · have hcounted : ∀ {k r}, ⟨[branch], .redis (.increment k), r⟩ ∈ pre ++ (counts ++ rest) →
        (⟨[], .redis (.increment k), r⟩ : Event (Op K) Res) ∈ under branch counts := by
      intro k r hin
      rcases List.mem_append.mp hin with hin | hin
      · exact absurd (hpre.top _ hin) (by simp)
      · rcases List.mem_append.mp hin with hin | hin
        · exact mem_under.mpr hin
        · exact absurd trivial (hrest _ hin)
    cases branch with
    | first =>
      have hcalls := incrementWindowCounter_trace hcounts.first
      exact hcalls.increment_unique (hcounted hmem) (hcounted hmem')
    | second =>
      have hcalls := incrementWindowCounter_trace hcounts.second
      exact hcalls.increment_unique (hcounted hmem) (hcounted hmem')
    | third => exact absurd rfl hbranch

end ApiFirewall.Gateway.ZeroTrustFilter
