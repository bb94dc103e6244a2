import ApiFirewall.Deployment

/-!
# Runs of single counter calls

Each thread is one call of `incrementWindowCounter`, for any client, endpoint and window. Calls start
at any time and interleave in any order; a command can fail before or after it is carried out, and a
call can be abandoned at any point, between its two commands in particular.
-/

namespace ApiFirewall

open ApiFirewall.Wire ApiFirewall.Gateway ApiFirewall.Gateway.RedisStateService
open ApiFirewall.KeyValue ApiFirewall.Reactive

/-- The arguments of one call. -/
structure WindowCall where
  clientIp : String
  endpoint : String
  window : ℕ
  window_pos : 0 < window

namespace WindowCall

variable {K : Type}

/-- The key of the counter. -/
def key (c : WindowCall) : String := countKey c.clientIp c.endpoint

/-- The call, as a program of its own. -/
def increment (c : WindowCall) : Program K Unit :=
  (incrementWindowCounter c.clientIp c.endpoint c.window).thenReturn ()

/-- What is left of a call that was answered 1. -/
def setWindow (c : WindowCall) : Program K Unit :=
  ((redis (.expire c.key c.window)).thenReturn (1 : ℤ)).thenReturn ()

/-- What is left of a call after the reply to its increment. -/
def counted (c : WindowCall) : Signal ℤ → Program K Unit
  | .value n => if n = 1 then c.setWindow else .just ()
  | .empty => .just ()
  | .error => .done .error

/-- What is left of a call after the reply to its expiry. -/
def windowSet : Signal Bool → Program K Unit
  | .error => .done .error
  | _ => .just ()

/-- A call increments first. -/
theorem increment_eq (c : WindowCall) : (c.increment : Program K Unit) =
    .call (.redis (.increment c.key)) c.counted := by
  change Mono.call (Op.redis (.increment c.key)) _ = _
  congr 1
  funext r
  cases r with
  | value n =>
    by_cases hn : n = 1
    · subst hn
      rfl
    · simp only [counted, Mono.onSignal_done, if_neg hn]
      rfl
  | empty => rfl
  | error => rfl

/-- A call that was answered 1 sets its window. -/
theorem setWindow_eq (c : WindowCall) : (c.setWindow : Program K Unit) =
    .call (.redis (.expire c.key c.window)) windowSet := by
  change Mono.call (Op.redis (.expire c.key c.window)) _ = _
  congr 1
  funext r
  cases r <;> rfl

/-- A call that has not started is not about to set its window. -/
theorem increment_ne_setWindow (c c' : WindowCall) :
    (c.increment : Program K Unit) ≠ c'.setWindow := by
  rw [increment_eq, setWindow_eq]
  intro h
  simp at h

/-- A call that has ended is not about to set its window. -/
theorem done_ne_setWindow (c : WindowCall) (s : Signal Unit) :
    (.done s : Program K Unit) ≠ c.setWindow := by
  rw [setWindow_eq]
  intro h
  simp at h

/-- Where a call stands: before its increment, before its expiry, or at its end. -/
inductive Stage (c : WindowCall) : Program K Unit → Prop where
  | counts : Stage c c.increment
  | sets : Stage c c.setWindow
  | ended (s : Signal Unit) : Stage c (.done s)

/-- After its increment a call sets its window, or has ended. -/
theorem stage_counted (c : WindowCall) (r : Signal ℤ) : c.Stage (c.counted r : Program K Unit) := by
  cases r with
  | value n =>
    by_cases hn : n = 1
    · simp only [counted, if_pos hn]
      exact .sets
    · simp only [counted, if_neg hn]
      exact .ended _
  | empty => exact .ended _
  | error => exact .ended _

/-- After its expiry a call has ended. -/
theorem stage_windowSet (c : WindowCall) (r : Signal Bool) :
    c.Stage (windowSet r : Program K Unit) := by
  cases r <;> exact .ended _

/-- A call is about to set its window exactly if it was answered 1. -/
theorem counted_eq_setWindow_iff {c : WindowCall} {r : Signal ℤ} :
    (c.counted r : Program K Unit) = c.setWindow ↔ r = .value 1 := by
  cases r with
  | value n =>
    by_cases hn : n = 1
    · simp [counted, hn]
    · simp only [counted, if_neg hn]
      exact iff_of_false (done_ne_setWindow c _) (by simpa using hn)
  | empty => exact iff_of_false (done_ne_setWindow c _) (by simp)
  | error => exact iff_of_false (done_ne_setWindow c _) (by simp)

/-- A call ends with its increment exactly if it was answered otherwise than 1. -/
theorem counted_eq_just_iff {c : WindowCall} {r : Signal ℤ} :
    (c.counted r : Program K Unit) = .just () ↔ r = .empty ∨ ∃ n, n ≠ 1 ∧ r = .value n := by
  cases r with
  | value n =>
    by_cases hn : n = 1
    · simp only [counted, if_pos hn]
      exact iff_of_false (done_ne_setWindow c _).symm (by simp [hn])
    · simp [counted, hn]
  | empty => simp [counted]
  | error => simp [counted, Mono.just]

end WindowCall

namespace Deployment

variable {K : Type}

/-- The worlds of single counter calls. -/
abbrev CounterState (K : Type) := World (Op K) Res (Store String) WindowCall

/-- The actions on single counter calls. -/
abbrev CounterAction (K : Type) := Action WindowCall (Env K)

/-- Single counter calls over one store. -/
def counterCalls (d : Deployment K) :
    System (Op K) Res (Store String) (Env K) WindowCall WindowCall where
  body := WindowCall.increment
  spawn := fun _ c => some c
  handle := d.handle

/-- What one action does to calls that stand at their stages. -/
inductive CounterStep (w : CounterState K) : CounterAction K → CounterState K → Prop where
  | tick (t : ℕ) : CounterStep w (.tick t) { w with now := w.now + t }
  | spawn (c : WindowCall) :
      CounterStep w (.spawn c) { w with threads := w.threads ++ [(c, c.increment)] }
  | count {i : ℕ} {c : WindowCall} {env : Env K} {log : List (Entry (Op K) Res)}
      (hi : w.threads[i]? = some (c, c.increment)) :
      CounterStep w (.call i [] env)
        { now := w.now
          shared := (command env.delivery w.now w.shared (.increment c.key)).2
          threads := w.threads.set i
            (c, c.counted (command env.delivery w.now w.shared (.increment c.key)).1)
          log := log }
  | set {i : ℕ} {c : WindowCall} {env : Env K} {log : List (Entry (Op K) Res)}
      (hi : w.threads[i]? = some (c, c.setWindow)) :
      CounterStep w (.call i [] env)
        { now := w.now
          shared := (command env.delivery w.now w.shared (.expire c.key c.window)).2
          threads := w.threads.set i (c, WindowCall.windowSet
            (command env.delivery w.now w.shared (.expire c.key c.window)).1)
          log := log }
  | cancel {i : ℕ} {c : WindowCall} {m : Program K Unit} (hi : w.threads[i]? = some (c, m)) :
      CounterStep w (.cancel i) { w with threads := w.threads.set i (c, .done .error) }

/-- Every call of a world stands at one of its stages. -/
def Staged (w : CounterState K) : Prop :=
  ∀ (i : ℕ) (c : WindowCall) (m : Program K Unit), w.threads[i]? = some (c, m) → c.Stage m

/-- Replacing one call by what is left of it keeps every call at a stage. -/
theorem Staged.set {w : CounterState K} (h : Staged w) {i : ℕ} {c : WindowCall} {m : Program K Unit}
    (hm : c.Stage m) : ∀ (j : ℕ) (c' : WindowCall) (m' : Program K Unit),
      (w.threads.set i (c, m))[j]? = some (c', m') → c'.Stage m' := by
  intro j c' m' hj
  rcases System.getElem?_set_cases hj with ⟨-, heq⟩ | ⟨-, hold⟩
  · obtain ⟨rfl, rfl⟩ := Prod.mk.inj heq
    exact hm
  · exact h j c' m' hold

/-- Every action on staged calls is one of these steps. -/
theorem counterStep_of_step {d : Deployment K} {w w' : CounterState K} {a : CounterAction K}
    (hw : Staged w) (hstep : d.counterCalls.step a w = some w') : CounterStep w a w' := by
  cases a with
  | tick t =>
    obtain rfl := Option.some.inj hstep
    exact .tick t
  | spawn c =>
    obtain ⟨_, hc, rfl⟩ := System.step_spawn hstep
    obtain rfl := Option.some.inj hc
    exact .spawn _
  | call i path env =>
    obtain ⟨c, m, op, k, hi, hnext, rfl⟩ := System.step_call hstep
    cases hw i c m hi with
    | counts =>
      rw [WindowCall.increment_eq] at hnext
      cases path with
      | nil =>
        obtain ⟨rfl, hk⟩ := Sigma.mk.inj (Option.some.inj hnext)
        cases hk
        exact .count hi
      | cons b path => simp [Mono.next] at hnext
    | sets =>
      rw [WindowCall.setWindow_eq] at hnext
      cases path with
      | nil =>
        obtain ⟨rfl, hk⟩ := Sigma.mk.inj (Option.some.inj hnext)
        cases hk
        exact .set hi
      | cons b path => simp [Mono.next] at hnext
    | ended s => simp [Mono.next] at hnext
  | join i path =>
    obtain ⟨c, m, m', hi, hjoin, rfl⟩ := System.step_join hstep
    cases hw i c m hi with
    | counts =>
      rw [WindowCall.increment_eq] at hjoin
      cases path <;> simp [Mono.join] at hjoin
    | sets =>
      rw [WindowCall.setWindow_eq] at hjoin
      cases path <;> simp [Mono.join] at hjoin
    | ended s => simp [Mono.join] at hjoin
  | cancel i =>
    obtain ⟨c, m, hi, rfl⟩ := System.step_cancel hstep
    exact .cancel hi

end Deployment

end ApiFirewall
