import ApiFirewall.Arithmetic.RangeDistance
import ApiFirewall.CounterRuns

/-!
# Rate counters that expire

Only the call that is answered 1 sets an expiry, in a second command. While it has not done so, or if
it dies before, the counter is stored without expiry, and every call that is answered then completes
on a counter that never expires. Apart from these calls, every call completes on a counter that
expires within the longest window that was used with its key.

The invariant says who can have left a counter without expiry: a call that waits to set its window
owns its key alone. Expiries are bounded by the longest window at all times.
-/

namespace ApiFirewall.Guarantees

open ApiFirewall.Arithmetic ApiFirewall.Gateway ApiFirewall.KeyValue ApiFirewall.Reactive Deployment

variable {K : Type}

/-- The longest window that calls have used with a key. -/
def longestWindow (calls : List WindowCall) (key : String) : ℕ :=
  largest ((calls.filter fun c => c.key = key).map WindowCall.window)

/-- A call's window is at most the longest one of its key. -/
theorem window_le_longest {calls : List WindowCall} {c : WindowCall} (h : c ∈ calls) :
    c.window ≤ longestWindow calls c.key := by
  apply le_largest
  exact List.mem_map_of_mem (List.mem_filter.mpr ⟨h, decide_eq_true rfl⟩)

/-- Further calls do not shorten the longest window. -/
theorem longestWindow_le_append (calls more : List WindowCall) (key : String) :
    longestWindow calls key ≤ longestWindow (calls ++ more) key := by
  apply largest_mono
  intro n hn
  obtain ⟨c, hc, rfl⟩ := List.mem_map.mp hn
  refine ⟨c.window, List.mem_map_of_mem ?_, le_rfl⟩
  rw [List.filter_append]
  exact List.mem_append_left _ hc

/-- A call that waits to set its window owns its key, which has no expiry; expiries are at most the
longest window away. -/
structure ExpiryInv (w : CounterState K) : Prop where
  staged : Staged w
  positive : w.shared.Positive
  unset : ∀ (i : ℕ) (c : WindowCall), w.threads[i]? = some (c, c.setWindow) →
    ∃ v, w.shared c.key = some ⟨v, none⟩
  unique : ∀ (i j : ℕ) (c c' : WindowCall), w.threads[i]? = some (c, c.setWindow) →
    w.threads[j]? = some (c', c'.setWindow) → c.key = c'.key → i = j
  bounded : ∀ key v e, w.shared key = some ⟨v, some e⟩ → e ≤ w.now + longestWindow w.labels key

/-- What a call leaves waiting after a reply: itself, or a call that was waiting before. -/
theorem waiting_of_set {w : CounterState K} {i j : ℕ} {c c' : WindowCall} {m : Program K Unit}
    (h : (w.threads.set i (c, m))[j]? = some (c', c'.setWindow)) :
    (i = j ∧ c' = c ∧ m = c.setWindow) ∨ (i ≠ j ∧ w.threads[j]? = some (c', c'.setWindow)) := by
  rcases System.getElem?_set_cases h with ⟨hij, heq⟩ | hold
  · obtain ⟨rfl, hm⟩ := Prod.mk.inj heq
    exact .inl ⟨hij, rfl, hm.symm⟩
  · exact .inr hold

namespace ExpiryInv

variable {w w' : CounterState K}

/-- Nothing has been called. -/
theorem init : ExpiryInv (World.init Store.empty : CounterState K) where
  staged := by simp [Staged, World.init]
  positive := .empty
  unset := by simp [World.init]
  unique := by simp [World.init]
  bounded := by simp [World.init, Store.empty]

/-- Time passes. -/
theorem tick (h : ExpiryInv w) (t : ℕ) : ExpiryInv { w with now := w.now + t } where
  staged := h.staged
  positive := h.positive
  unset := h.unset
  unique := h.unique
  bounded := by
    intro key v e hcell
    have := h.bounded key v e hcell
    change e ≤ w.now + t + longestWindow w.labels key
    omega

/-- A call starts. -/
theorem spawn (h : ExpiryInv w) (c : WindowCall) :
    ExpiryInv { w with threads := w.threads ++ [(c, c.increment)] } := by
  have hthread : ∀ {i : ℕ} {c' : WindowCall} {m : Program K Unit},
      (w.threads ++ [(c, c.increment)])[i]? = some (c', m) →
        w.threads[i]? = some (c', m) ∨ (c' = c ∧ m = c.increment) := by
    intro i c' m hi
    rw [List.getElem?_append] at hi
    split at hi
    · exact .inl hi
    · exact .inr (Prod.mk.inj (List.mem_singleton.mp (List.mem_of_getElem? hi)))
  have hwaiting : ∀ {i : ℕ} {c' : WindowCall},
      (w.threads ++ [(c, c.increment)])[i]? = some (c', c'.setWindow) →
        w.threads[i]? = some (c', c'.setWindow) := by
    intro i c' hi
    rcases hthread hi with hold | ⟨rfl, hnew⟩
    · exact hold
    · exact absurd hnew.symm (WindowCall.increment_ne_setWindow c' c')
  refine ⟨?_, h.positive, ?_, ?_, ?_⟩
  · intro i c' m hi
    rcases hthread hi with hold | ⟨rfl, rfl⟩
    · exact h.staged i c' m hold
    · exact .counts
  · intro i c' hi
    exact h.unset i c' (hwaiting hi)
  · intro i j c₁ c₂ hi hj
    exact h.unique i j c₁ c₂ (hwaiting hi) (hwaiting hj)
  · intro key v e hcell
    have hle : longestWindow w.labels key ≤ longestWindow (w.labels ++ [c]) key :=
      longestWindow_le_append _ _ _
    have := h.bounded key v e hcell
    rw [show World.labels { w with threads := w.threads ++ [(c, c.increment)] } = w.labels ++ [c] by
      simp [World.labels]]
    change e ≤ w.now + longestWindow (w.labels ++ [c]) key
    omega

/-- A call is abandoned. -/
theorem cancel (h : ExpiryInv w) {i : ℕ} {c : WindowCall} {m : Program K Unit}
    (hi : w.threads[i]? = some (c, m)) :
    ExpiryInv { w with threads := w.threads.set i (c, .done .error) } := by
  have hwaiting : ∀ {j : ℕ} {c' : WindowCall},
      (w.threads.set i (c, .done .error))[j]? = some (c', c'.setWindow) →
        w.threads[j]? = some (c', c'.setWindow) := by
    intro j c' hj
    rcases waiting_of_set hj with ⟨-, -, hdone⟩ | ⟨-, hold⟩
    · exact absurd hdone (WindowCall.done_ne_setWindow c _)
    · exact hold
  refine ⟨h.staged.set (.ended _), h.positive, ?_, ?_, ?_⟩
  · intro j c' hj
    exact h.unset j c' (hwaiting hj)
  · intro j k c₁ c₂ hj hk
    exact h.unique j k c₁ c₂ (hwaiting hj) (hwaiting hk)
  · intro key v e hcell
    simp only [World.labels, System.map_fst_set hi]
    exact h.bounded key v e hcell

/-- An increment that is answered 1 finds no visible counter, and leaves one without expiry. -/
theorem first_of_count (h : ExpiryInv w) {c : WindowCall} {delivery : Delivery}
    (hreply : (command delivery w.now w.shared (.increment c.key)).1 = .value 1) :
    w.shared.get w.now c.key = none ∧
      (command delivery w.now w.shared (.increment c.key)).2 c.key = some ⟨.int 1, none⟩ := by
  obtain ⟨rfl, hanswer⟩ := command_eq_value hreply
  rcases increment_cases hanswer with ⟨hget, -⟩ | ⟨n, e, hget, hn⟩
  · refine ⟨hget, ?_⟩
    change (w.shared.exec w.now (.increment c.key)).2 c.key = _
    simp [Store.exec, hget]
  · have := h.positive c.key n e (Store.eq_some_of_get hget)
    omega

/-- While a call waits to set its window, no increment on its key is answered 1. -/
theorem not_first_of_waiting (h : ExpiryInv w) {j : ℕ} {c c' : WindowCall}
    (hj : w.threads[j]? = some (c', c'.setWindow)) (hkey : c'.key = c.key) (delivery : Delivery) :
    c.counted (K := K) (command delivery w.now w.shared (.increment c.key)).1 ≠ c.setWindow := by
  intro hset
  obtain ⟨v, hv⟩ := h.unset j c' hj
  have hnone := (h.first_of_count (WindowCall.counted_eq_setWindow_iff.mp hset)).1
  rw [← hkey, Store.get_of_persistent hv] at hnone
  cases hnone

/-- A call increments: if it was answered 1, it owns the key from then on. -/
theorem count (h : ExpiryInv w) {i : ℕ} {c : WindowCall} {delivery : Delivery}
    {log : List (Entry (Op K) Res)} (hi : w.threads[i]? = some (c, c.increment)) :
    ExpiryInv
      { now := w.now
        shared := (command delivery w.now w.shared (.increment c.key)).2
        threads := w.threads.set i
          (c, c.counted (command delivery w.now w.shared (.increment c.key)).1)
        log := log } := by
  have hstore := command_store delivery w.now w.shared (.increment c.key)
  refine ⟨h.staged.set (WindowCall.stage_counted _ _), positive_command h.positive _ _ _,
    ?_, ?_, ?_⟩
  · intro j c' hj
    rcases waiting_of_set hj with ⟨-, rfl, hset⟩ | ⟨-, hold⟩
    · exact ⟨_, (h.first_of_count (WindowCall.counted_eq_setWindow_iff.mp hset)).2⟩
    · obtain ⟨v, hv⟩ := h.unset j c' hold
      rcases hstore with heq | heq
      · exact ⟨v, by rwa [heq]⟩
      · simp only [heq]
        exact Store.persistent_exec_increment_iff.mpr (.inr ⟨v, hv⟩)
  · intro j k c₁ c₂ hj hk hkey
    rcases waiting_of_set hj with ⟨rfl, rfl, hset⟩ | ⟨-, hj'⟩
    · rcases waiting_of_set hk with ⟨rfl, -, -⟩ | ⟨-, hk'⟩
      · rfl
      · exact absurd hset (h.not_first_of_waiting hk' hkey.symm delivery)
    · rcases waiting_of_set hk with ⟨rfl, rfl, hset⟩ | ⟨-, hk'⟩
      · exact absurd hset (h.not_first_of_waiting hj' hkey delivery)
      · exact h.unique j k c₁ c₂ hj' hk' hkey
  · intro key v e hcell
    simp only [World.labels, System.map_fst_set hi]
    rcases hstore with heq | heq
    · simp only [heq] at hcell
      exact h.bounded key v e hcell
    · simp only [heq] at hcell
      obtain ⟨v', hv'⟩ := Store.expiry_of_exec_increment hcell
      exact h.bounded key v' e hv'

/-- A call sets its window: nobody else waits to set one for the same key. -/
theorem set (h : ExpiryInv w) {i : ℕ} {c : WindowCall} {delivery : Delivery}
    {log : List (Entry (Op K) Res)} (hi : w.threads[i]? = some (c, c.setWindow)) :
    ExpiryInv
      { now := w.now
        shared := (command delivery w.now w.shared (.expire c.key c.window)).2
        threads := w.threads.set i (c, WindowCall.windowSet
          (command delivery w.now w.shared (.expire c.key c.window)).1)
        log := log } := by
  have hstore := command_store delivery w.now w.shared (.expire c.key c.window)
  have hended : WindowCall.windowSet (K := K)
      (command delivery w.now w.shared (.expire c.key c.window)).1 ≠ c.setWindow := by
    cases (command delivery w.now w.shared (.expire c.key c.window)).1 with
    | value b => exact WindowCall.done_ne_setWindow c _
    | empty => exact WindowCall.done_ne_setWindow c _
    | error => exact WindowCall.done_ne_setWindow c _
  refine ⟨h.staged.set (WindowCall.stage_windowSet _ _), positive_command h.positive _ _ _,
    ?_, ?_, ?_⟩
  · intro j c' hj
    rcases waiting_of_set hj with ⟨-, -, hset⟩ | ⟨hij, hold⟩
    · exact absurd hset hended
    · obtain ⟨v, hv⟩ := h.unset j c' hold
      have hne : c.key ≠ c'.key := fun hkey => hij (h.unique i j c c' hi hold hkey)
      rcases hstore with heq | heq
      · exact ⟨v, by rwa [heq]⟩
      · refine ⟨v, ?_⟩
        simp only [heq]
        exact (Store.exec_other (c := .expire c.key c.window) hne).trans hv
  · intro j k c₁ c₂ hj hk hkey
    rcases waiting_of_set hj with ⟨-, -, hset⟩ | ⟨-, hj⟩
    · exact absurd hset hended
    · rcases waiting_of_set hk with ⟨-, -, hset⟩ | ⟨-, hk⟩
      · exact absurd hset hended
      · exact h.unique j k c₁ c₂ hj hk hkey
  · intro key v e hcell
    simp only [World.labels, System.map_fst_set hi]
    rcases hstore with heq | heq
    · simp only [heq] at hcell
      exact h.bounded key v e hcell
    · simp only [heq] at hcell
      rcases Store.expiry_of_exec_expire hcell with ⟨rfl, rfl⟩ | hold
      · have hmem : c ∈ w.labels := List.mem_map.mpr ⟨_, List.mem_of_getElem? hi, rfl⟩
        exact Nat.add_le_add_left (window_le_longest hmem) _
      · exact h.bounded key v e hold

/-- Every step keeps the invariant. -/
theorem step {a : CounterAction K} (h : ExpiryInv w) (hstep : CounterStep w a w') :
    ExpiryInv w' := by
  cases hstep with
  | tick t => exact h.tick t
  | spawn c => exact h.spawn c
  | count hi => exact h.count hi
  | set hi => exact h.set hi
  | cancel hi => exact h.cancel hi

/-- The invariant holds in every run. -/
theorem of_run {d : Deployment K} {P : CounterAction K → Prop}
    (hrun : d.counterCalls.Run P (World.init Store.empty) w) : ExpiryInv w := by
  induction hrun with
  | refl => exact init
  | step _ _ hstep ih => exact ih.step (counterStep_of_step ih.staged hstep)

end ExpiryInv

/-- The action carries out an increment that begins the counter of a key. -/
def Begins (key : String) (w : CounterState K) (a : CounterAction K) : Prop :=
  ∃ i env c, a = .call i [] env ∧ w.threads[i]? = some (c, c.increment) ∧ c.key = key ∧
    env.delivery ≠ .rejected ∧ w.shared.get w.now key = none

/-- The action carries out an expiry of a key. -/
def SetsExpiry (key : String) (w : CounterState K) (a : CounterAction K) : Prop :=
  ∃ i env c, a = .call i [] env ∧ w.threads[i]? = some (c, c.setWindow) ∧ c.key = key ∧
    env.delivery ≠ .rejected

/-- A command that is not rejected is carried out, whether or not it is answered. -/
theorem command_snd {delivery : Delivery} (h : delivery ≠ .rejected) (now : ℕ) (s : Store String)
    (c : Command String) : (command delivery now s c).2 = (s.exec now c).2 := by
  cases delivery with
  | answered => rfl
  | rejected => exact absurd rfl h
  | lost => rfl

/-- A step leaves a key without expiry if it begins its counter, or if the key was so before and the
step does not carry out its expiry. -/
theorem persistent_step_iff {w w' : CounterState K} {a : CounterAction K}
    (hstep : CounterStep w a w') (key : String) :
    w'.shared.Persistent key ↔
      Begins key w a ∨ (w.shared.Persistent key ∧ ¬ SetsExpiry key w a) := by
  cases hstep with
  | tick t => simp [Begins, SetsExpiry]
  | spawn c => simp [Begins, SetsExpiry]
  | cancel hi => simp [Begins, SetsExpiry]
  | @count i c env log hi =>
    have hsets : ¬ SetsExpiry key w (.call i [] env) := by
      rintro ⟨_, _, c', ⟨⟩, hi', -, -⟩
      rw [hi, Option.some.injEq, Prod.mk.injEq] at hi'
      obtain ⟨rfl, hset⟩ := hi'
      exact WindowCall.increment_ne_setWindow c c hset
    have hbegins : Begins key w (.call i [] env) ↔
        c.key = key ∧ env.delivery ≠ .rejected ∧ w.shared.get w.now c.key = none := by
      constructor
      · rintro ⟨_, _, c', ⟨⟩, hi', hkey, hcarried, hget⟩
        rw [hi, Option.some.injEq, Prod.mk.injEq] at hi'
        obtain ⟨rfl, -⟩ := hi'
        exact ⟨hkey, hcarried, hkey ▸ hget⟩
      · rintro ⟨rfl, hcarried, hget⟩
        exact ⟨i, env, c, rfl, hi, rfl, hcarried, hget⟩
    simp only [hbegins, hsets, not_false_eq_true, and_true]
    by_cases hrejected : env.delivery = .rejected
    · simp [hrejected, command]
    · simp [command_snd hrejected, Store.persistent_exec_increment_iff, hrejected]
  | @set i c env log hi =>
    have hbegins : ¬ Begins key w (.call i [] env) := by
      rintro ⟨_, _, c', ⟨⟩, hi', -, -, -⟩
      rw [hi, Option.some.injEq, Prod.mk.injEq] at hi'
      obtain ⟨rfl, hcount⟩ := hi'
      exact WindowCall.increment_ne_setWindow c c hcount.symm
    have hsets : SetsExpiry key w (.call i [] env) ↔ c.key = key ∧ env.delivery ≠ .rejected := by
      constructor
      · rintro ⟨_, _, c', ⟨⟩, hi', hkey, hcarried⟩
        rw [hi, Option.some.injEq, Prod.mk.injEq] at hi'
        obtain ⟨rfl, -⟩ := hi'
        exact ⟨hkey, hcarried⟩
      · rintro ⟨rfl, hcarried⟩
        exact ⟨i, env, c, rfl, hi, rfl, hcarried⟩
    simp only [hbegins, hsets, false_or]
    by_cases hrejected : env.delivery = .rejected
    · simp [hrejected, command]
    · simp [command_snd hrejected, Store.persistent_exec_expire_iff, hrejected]

/-- In every run, a key is without expiry from an increment that begins its counter to the next
expiry of the key that is carried out. -/
theorem persistent_iff_begunIn {d : Deployment K} {as : List (CounterAction K)} {w : CounterState K}
    (hexec : d.counterCalls.exec as (World.init Store.empty) = some w) (key : String) :
    w.shared.Persistent key ↔
      d.counterCalls.BegunIn (Begins key) (SetsExpiry key) as (World.init Store.empty) := by
  refine System.holds_iff_begunIn (I := fun w => w.shared.Persistent key) ?_ ?_ hexec
  · simp [Store.Persistent, World.init, Store.empty]
  · intro w a w' hrun hstep
    exact persistent_step_iff (counterStep_of_step (ExpiryInv.of_run hrun).staged hstep) key

/-- In the step from one world to the next, a call completes normally. -/
def Completes (w w' : CounterState K) (i : ℕ) (c : WindowCall) : Prop :=
  w.threads[i]? ≠ some (c, .just ()) ∧ w'.threads[i]? = some (c, .just ())

/-- A key is visible, with a time to live of at most the longest window that was used with it. -/
def Expires (w : CounterState K) (key : String) : Prop :=
  ∃ v e, w.shared.get w.now key = some ⟨v, some e⟩ ∧ e ≤ w.now + longestWindow w.labels key

/-- The action answers the increment of a call. -/
def Answers (w : CounterState K) (a : CounterAction K) (c : WindowCall) : Prop :=
  ∃ i env n, a = .call i [] env ∧ w.threads[i]? = some (c, c.increment) ∧
    (command env.delivery w.now w.shared (.increment c.key)).1 = .value n

/-- What completes by the replacement of one call is that call. -/
theorem completed_of_set {w : CounterState K} {i j : ℕ} {c c' : WindowCall} {m : Program K Unit}
    (hbefore : w.threads[j]? ≠ some (c', .just ()))
    (hafter : (w.threads.set i (c, m))[j]? = some (c', .just ())) :
    i = j ∧ c' = c ∧ m = .just () := by
  rcases System.getElem?_set_cases hafter with ⟨hij, heq⟩ | ⟨-, hold⟩
  · obtain ⟨rfl, hm⟩ := Prod.mk.inj heq
    exact ⟨hij, rfl, hm.symm⟩
  · exact absurd hold hbefore

/-- An increment that is answered otherwise than 1 keeps the expiry of the counter that it finds. -/
theorem found_of_answer {now : ℕ} {s : Store String} {key : String} {n : ℤ}
    (hanswer : answer now s (.increment key) = .value n) (hn : n ≠ 1) :
    ∃ v v' e, s.get now key = some ⟨v, e⟩ ∧
      (s.exec now (.increment key)).2 key = some ⟨v', e⟩ := by
  rcases Store.exec_increment_cases s now key with ⟨hget, -⟩ | ⟨m, e, -, hget, -, hcell⟩ |
    ⟨hnone, -⟩
  · rcases increment_cases hanswer with ⟨-, rfl⟩ | ⟨m, e, hget', -⟩
    · exact absurd rfl hn
    · simp [hget] at hget'
  · exact ⟨_, _, e, hget, hcell⟩
  · simp [answer, hnone] at hanswer

namespace ExpiryInv

variable {w w' : CounterState K} {a : CounterAction K}

/-- A call that completes with its increment does so on a counter that expires, unless it was answered
on one without expiry. -/
theorem expires_of_count (h : ExpiryInv w) {i : ℕ} {c : WindowCall} {env : Env K}
    {log : List (Entry (Op K) Res)} (hi : w.threads[i]? = some (c, c.increment))
    (hended : c.counted (K := K) (command env.delivery w.now w.shared (.increment c.key)).1 =
      .just ())
    (hfound : Answers w (.call i [] env) c → ¬ w.shared.Persistent c.key) :
    Expires
      { now := w.now
        shared := (command env.delivery w.now w.shared (.increment c.key)).2
        threads := w.threads.set i
          (c, c.counted (command env.delivery w.now w.shared (.increment c.key)).1)
        log := log } c.key := by
  rcases WindowCall.counted_eq_just_iff.mp hended with hempty | ⟨n, hn, hreply⟩
  · exact absurd hempty (command_ne_empty _ _ _ _)
  · obtain ⟨hanswered, hanswer⟩ := command_eq_value hreply
    obtain ⟨v, v', e, hget, hcell⟩ := found_of_answer hanswer hn
    cases e with
    | none => exact absurd ⟨v, Store.eq_some_of_get hget⟩ (hfound ⟨i, env, n, rfl, hi, hreply⟩)
    | some e =>
      have hlive : w.now < e := by
        simp only [Store.get, Option.filter_eq_some_iff] at hget
        simpa [Cell.live] using hget.2
      refine ⟨v', e, ?_, ?_⟩
      · simp only [hanswered]
        change (w.shared.exec w.now (.increment c.key)).2.get w.now c.key = _
        simp [Store.get, hcell, Cell.live, hlive]
      · simp only [World.labels, System.map_fst_set hi]
        exact h.bounded _ _ e (Store.eq_some_of_get hget)

/-- A call that completes with its expiry does so on a counter that expires. -/
theorem expires_of_set (h : ExpiryInv w) {i : ℕ} {c : WindowCall} {env : Env K}
    {log : List (Entry (Op K) Res)} (hi : w.threads[i]? = some (c, c.setWindow))
    (hended : WindowCall.windowSet (K := K)
      (command env.delivery w.now w.shared (.expire c.key c.window)).1 = .just ()) :
    Expires
      { now := w.now
        shared := (command env.delivery w.now w.shared (.expire c.key c.window)).2
        threads := w.threads.set i (c, WindowCall.windowSet
          (command env.delivery w.now w.shared (.expire c.key c.window)).1)
        log := log } c.key := by
  obtain ⟨b, hreply⟩ : ∃ b,
      (command env.delivery w.now w.shared (.expire c.key c.window)).1 = .value b := by
    cases hr : (command env.delivery w.now w.shared (.expire c.key c.window)).1 with
    | value b => exact ⟨b, rfl⟩
    | empty => exact absurd hr (command_ne_empty _ _ _ _)
    | error => simp [hr, WindowCall.windowSet, Mono.just] at hended
  obtain ⟨hanswered, -⟩ := command_eq_value hreply
  obtain ⟨v, hv⟩ := h.unset i c hi
  have hmem : c ∈ w.labels := List.mem_map.mpr ⟨_, List.mem_of_getElem? hi, rfl⟩
  have hstored : (w.shared.exec w.now (.expire c.key c.window)).2 c.key =
      some ⟨v, some (w.now + c.window)⟩ := by
    simp [Store.exec, Store.get_of_persistent hv, Nat.ne_of_gt c.window_pos]
  refine ⟨v, w.now + c.window, ?_, ?_⟩
  · simp only [hanswered]
    change (w.shared.exec w.now (.expire c.key c.window)).2.get w.now c.key = _
    simp [Store.get, hstored, Cell.live, c.window_pos]
  · simp only [World.labels, System.map_fst_set hi]
    exact Nat.add_le_add_left (window_le_longest hmem) _

/-- Unless its increment is answered on a counter without expiry, a call that completes does so on a
counter that expires. -/
theorem expires_of_completes (h : ExpiryInv w) (hstep : CounterStep w a w')
    (hfound : ∀ c, Answers w a c → ¬ w.shared.Persistent c.key) {i : ℕ} {c : WindowCall}
    (hc : Completes w w' i c) : Expires w' c.key := by
  obtain ⟨hbefore, hafter⟩ := hc
  cases hstep with
  | tick t => exact absurd hafter hbefore
  | spawn c' =>
    rw [List.getElem?_append] at hafter
    split at hafter
    · exact absurd hafter hbefore
    · obtain ⟨-, hnew⟩ := Prod.mk.inj (List.mem_singleton.mp (List.mem_of_getElem? hafter))
      rw [WindowCall.increment_eq] at hnew
      simp [Mono.just] at hnew
  | count hi =>
    obtain ⟨rfl, rfl, hended⟩ := completed_of_set hbefore hafter
    exact h.expires_of_count hi hended (hfound c)
  | set hi =>
    obtain ⟨rfl, rfl, hended⟩ := completed_of_set hbefore hafter
    exact h.expires_of_set hi hended
  | cancel hi =>
    obtain ⟨-, -, hended⟩ := completed_of_set hbefore hafter
    simp [Mono.just] at hended

/-- A call whose increment is answered on a counter without expiry completes, and leaves it so. -/
theorem persists_of_answers (h : ExpiryInv w) (hstep : CounterStep w a w') {c : WindowCall}
    (hanswers : Answers w a c) (hpersistent : w.shared.Persistent c.key) :
    ∃ i, Completes w w' i c ∧ ¬ Expires w' c.key := by
  obtain ⟨i, env, n, rfl, hi, hreply⟩ := hanswers
  obtain ⟨v, hv⟩ := hpersistent
  cases hstep with
  | @count _ c' _ _ hi' =>
    obtain rfl : c = c' := by
      rw [hi, Option.some.injEq, Prod.mk.injEq] at hi'
      exact hi'.1
    obtain ⟨hanswered, hanswer⟩ := command_eq_value hreply
    have hn : n ≠ 1 := by
      rintro rfl
      have hnone := (h.first_of_count hreply).1
      rw [Store.get_of_persistent hv] at hnone
      cases hnone
    have hended : c.counted (K := K) (command env.delivery w.now w.shared (.increment c.key)).1 =
        .just () :=
      WindowCall.counted_eq_just_iff.mpr (.inr ⟨n, hn, hreply⟩)
    have hstored : (command env.delivery w.now w.shared (.increment c.key)).2.Persistent c.key := by
      rw [command_snd (by simp [hanswered]), Store.persistent_exec_increment_iff]
      exact .inr ⟨v, hv⟩
    refine ⟨i, ⟨?_, ?_⟩, ?_⟩
    · rw [hi, WindowCall.increment_eq]
      simp [Mono.just]
    · have hlt := (List.getElem?_eq_some_iff.mp hi).1
      simp only [List.getElem?_set_self hlt, hended]
    · rintro ⟨_, e, hvisible, -⟩
      obtain ⟨v', hv'⟩ := hstored
      rw [Store.get_of_persistent hv'] at hvisible
      simp at hvisible
  | @set _ c' _ _ hi' =>
    rw [hi, Option.some.injEq, Prod.mk.injEq] at hi'
    obtain ⟨rfl, hset⟩ := hi'
    exact absurd hset (WindowCall.increment_ne_setWindow c c)

end ExpiryInv

/-- In every run of counter calls, every call that completes does so on a counter that expires within
the longest window used with it, if and only if no increment is answered between one that began the
counter and the next expiry of the key that was carried out. -/
theorem completed_expires_iff (d : Deployment K) (as : List (CounterAction K)) :
    (∀ w a w', d.counterCalls.StepOf as (World.init Store.empty) w a w' →
      ∀ i c, Completes w w' i c → Expires w' c.key) ↔
    ∀ pre a post w w', as = pre ++ a :: post →
      d.counterCalls.exec pre (World.init Store.empty) = some w →
      d.counterCalls.step a w = some w' → ∀ c, Answers w a c →
        ¬ d.counterCalls.BegunIn (Begins c.key) (SetsExpiry c.key) pre (World.init Store.empty) := by
  constructor
  · intro h pre a post w w' hsplit hexec hstep c hanswers hbegun
    have hstepOf : d.counterCalls.StepOf as (World.init Store.empty) w a w' :=
      ⟨pre, post, hsplit, hexec, hstep⟩
    have hinv := ExpiryInv.of_run hstepOf.run
    obtain ⟨i, hc, hpersists⟩ := hinv.persists_of_answers (counterStep_of_step hinv.staged hstep)
      hanswers ((persistent_iff_begunIn hexec c.key).mpr hbegun)
    exact hpersists (h w a w' hstepOf i c hc)
  · intro h w a w' hstepOf i c hc
    have hinv := ExpiryInv.of_run hstepOf.run
    obtain ⟨pre, post, hsplit, hexec, hstep⟩ := hstepOf
    refine hinv.expires_of_completes (counterStep_of_step hinv.staged hstep) ?_ hc
    intro c' hanswers hpersistent
    exact h pre a post w w' hsplit hexec hstep c' hanswers
      ((persistent_iff_begunIn hexec c'.key).mp hpersistent)

/-- A call for the short window of a login. -/
def loginCall : WindowCall := ⟨"10.0.0.1", "/api/auth/login", seconds 10, by decide⟩

/-- A first call is abandoned after it was answered 1; a second one starts. -/
def abandonedFirst : List (CounterAction ℚ) :=
  [.spawn loginCall, .call 0 [] sampleEnv, .cancel 0, .spawn loginCall]

/-- The second call completes on a counter that never expires. -/
theorem not_expires_abandonedFirst :
    ¬ ∀ (d : Deployment ℚ) (as : List (CounterAction ℚ)) (w : CounterState ℚ) (a : CounterAction ℚ)
      (w' : CounterState ℚ), d.counterCalls.StepOf as (World.init Store.empty) w a w' →
        ∀ i c, Completes w w' i c → Expires w' c.key := by
  intro h
  have hexec : sample.counterCalls.exec abandonedFirst (World.init Store.empty) =
      some (sample.counterCalls.after abandonedFirst (World.init Store.empty)) := rfl
  have hinv : ExpiryInv (sample.counterCalls.after abandonedFirst (World.init Store.empty)) :=
    ExpiryInv.of_run (System.Run.of_exec (P := fun _ => True) hexec fun _ _ => trivial)
  have hanswers : Answers (sample.counterCalls.after abandonedFirst (World.init Store.empty))
      (.call 1 [] sampleEnv) loginCall := ⟨1, sampleEnv, 2, rfl, rfl, rfl⟩
  obtain ⟨w', hstep⟩ : ∃ w', sample.counterCalls.step (.call 1 [] sampleEnv)
      (sample.counterCalls.after abandonedFirst (World.init Store.empty)) = some w' := ⟨_, rfl⟩
  obtain ⟨i, hc, hpersists⟩ :=
    hinv.persists_of_answers (counterStep_of_step hinv.staged hstep) hanswers ⟨.int 1, rfl⟩
  exact hpersists (h sample (abandonedFirst ++ [.call 1 [] sampleEnv]) _ _ w'
    ⟨abandonedFirst, [], rfl, hexec, hstep⟩ i loginCall hc)

end ApiFirewall.Guarantees
