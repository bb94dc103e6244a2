import ApiFirewall.Reactive.ThreadOrder
import Mathlib.Algebra.Order.BigOperators.Group.List
import Mathlib.Algebra.GroupWithZero.Nat
import Mathlib.Algebra.Order.Group.Nat

/-!
# How long a source runs

A step of a source is a call that is answered or a joint result that is delivered. A source runs
within a bound if it ends after so many steps, whatever the replies are and in whatever order its
parts are scheduled. A source that has not ended always offers a step, so one that runs within a
bound ends without waiting for any other thread.
-/

namespace ApiFirewall.Reactive

variable {Op : Type} {Res : Op → Type} {α β γ δ : Type}

namespace Mono

/-- The source ends after at most this number of steps. -/
def Within : {α : Type} → Mono Op Res α → ℕ → Prop
  | _, done _, _ => True
  | _, call _ k, n => ∃ m, m + 1 ≤ n ∧ ∀ r, (k r).Within m
  | _, zip a b c k, n => ∃ na nb nc m, na + nb + nc + m + 1 ≤ n ∧
      a.Within na ∧ b.Within nb ∧ c.Within nc ∧ ∀ s, (k s).Within m

@[simp] theorem within_done (s : Signal α) (n : ℕ) : (done s : Mono Op Res α).Within n := trivial

@[simp] theorem within_just (a : α) (n : ℕ) : (just a : Mono Op Res α).Within n := trivial

/-- One call takes one step. -/
@[simp] theorem within_await (op : Op) : (await op : Mono Op Res (Res op)).Within 1 :=
  ⟨0, Nat.le_refl 1, fun _ => trivial⟩

/-- A source that runs within a bound runs within a larger one. -/
theorem Within.mono {m : Mono Op Res α} {n n' : ℕ} (h : m.Within n) (hle : n ≤ n') :
    m.Within n' := by
  cases m with
  | done s => trivial
  | call op k =>
    obtain ⟨m, hm, hk⟩ := h
    exact ⟨m, Nat.le_trans hm hle, hk⟩
  | zip a b c k =>
    obtain ⟨na, nb, nc, m, hm, hrest⟩ := h
    exact ⟨na, nb, nc, m, Nat.le_trans hm hle, hrest⟩

/-- Sequencing adds the bounds. -/
theorem within_onSignal {m : Mono Op Res α} {f : Signal α → Mono Op Res β} {n n' : ℕ}
    (hm : m.Within n) (hf : ∀ s, (f s).Within n') : (m.onSignal f).Within (n + n') := by
  induction m generalizing n with
  | done s => exact (hf s).mono (Nat.le_add_left n' n)
  | call op k ih =>
    obtain ⟨m, hle, hk⟩ := hm
    exact ⟨m + n', by omega, fun r => ih r (hk r) hf⟩
  | zip a b c k _ _ _ ih =>
    obtain ⟨na, nb, nc, m, hle, ha, hb, hc, hk⟩ := hm
    exact ⟨na, nb, nc, m + n', by omega, ha, hb, hc, fun s => ih s (hk s) hf⟩

section Operators

variable {m : Mono Op Res α} {n n' bound : ℕ}

/-- A `flatMap` runs as long as its source and then its continuation. -/
theorem within_flatMap {f : α → Mono Op Res β} (hm : m.Within n) (hf : ∀ a, (f a).Within n')
    (hle : n + n' ≤ bound) : (m.flatMap f).Within bound := by
  refine Within.mono (within_onSignal hm fun s => ?_) hle
  cases s with
  | value a => exact hf a
  | empty => trivial
  | error => trivial

/-- One source runs after the other. -/
theorem within_andThen {next : Mono Op Res β} (hm : m.Within n) (hnext : next.Within n')
    (hle : n + n' ≤ bound) : (m.andThen next).Within bound := by
  refine Within.mono (within_onSignal hm fun s => ?_) hle
  cases s with
  | value a => exact hnext
  | empty => exact hnext
  | error => trivial

/-- Returning a value takes no step. -/
theorem within_thenReturn (hm : m.Within n) (b : β) : (m.thenReturn b).Within n :=
  within_andThen hm (within_just b 0) (Nat.le_refl n)

/-- Replacing an empty completion takes no step. -/
theorem within_defaultIfEmpty (hm : m.Within n) (a : α) : (m.defaultIfEmpty a).Within n := by
  refine Within.mono (within_onSignal hm fun s => ?_) (Nat.le_refl (n + 0))
  cases s <;> trivial

/-- Replacing an error by a value takes no step. -/
theorem within_onErrorResume (hm : m.Within n) (a : α) :
    (m.onErrorResume (just a)).Within n := by
  refine Within.mono (within_onSignal hm fun s => ?_) (Nat.le_refl (n + 0))
  cases s <;> trivial

end Operators

/-- A call uses up a step. -/
theorem Within.of_next : {α : Type} → {m : Mono Op Res α} → {path : List Branch} → {n : ℕ} →
    {c : (op : Op) × (Signal (Res op) → Mono Op Res α)} → m.Within n → m.next path = some c →
    ∃ n', n' + 1 ≤ n ∧ ∀ r, (c.2 r).Within n' := by
  intro α m
  induction m with
  | done s => intro path n c _ h; simp [next] at h
  | call op k =>
    intro path n c hm h
    cases path with
    | nil =>
      simp only [next, Option.some.injEq] at h
      subst h
      exact hm
    | cons b path => simp [next] at h
  | zip a b c k iha ihb ihc _ =>
    intro path n call hm h
    obtain ⟨na, nb, nc, m, hle, ha, hb, hc, hk⟩ := hm
    cases path with
    | nil => simp [next] at h
    | cons branch path =>
      cases branch with
      | first =>
        obtain ⟨call', hnext, rfl⟩ := Option.map_eq_some_iff.mp h
        obtain ⟨n', hn', hr⟩ := iha ha hnext
        exact ⟨n' + nb + nc + m + 1, by omega, fun r => ⟨n', nb, nc, m, by omega, hr r, hb, hc, hk⟩⟩
      | second =>
        obtain ⟨call', hnext, rfl⟩ := Option.map_eq_some_iff.mp h
        obtain ⟨n', hn', hr⟩ := ihb hb hnext
        exact ⟨na + n' + nc + m + 1, by omega, fun r => ⟨na, n', nc, m, by omega, ha, hr r, hc, hk⟩⟩
      | third =>
        obtain ⟨call', hnext, rfl⟩ := Option.map_eq_some_iff.mp h
        obtain ⟨n', hn', hr⟩ := ihc hc hnext
        exact ⟨na + nb + n' + m + 1, by omega, fun r => ⟨na, nb, n', m, by omega, ha, hb, hr r, hk⟩⟩

/-- A joint result uses up a step. -/
theorem Within.of_join : {α : Type} → {m m' : Mono Op Res α} → {path : List Branch} → {n : ℕ} →
    m.Within n → m.join path = some m' → ∃ n', n' + 1 ≤ n ∧ m'.Within n' := by
  intro α m
  induction m with
  | done s => intro m' path n _ h; simp [join] at h
  | call op k => intro m' path n _ h; cases path <;> simp [join] at h
  | zip a b c k iha ihb ihc _ =>
    intro m' path n hm h
    obtain ⟨na, nb, nc, m, hle, ha, hb, hc, hk⟩ := hm
    cases path with
    | nil =>
      obtain ⟨s, -, rfl⟩ := Option.map_eq_some_iff.mp h
      exact ⟨m, by omega, hk s⟩
    | cons branch path =>
      cases branch with
      | first =>
        obtain ⟨a', hjoin, rfl⟩ := Option.map_eq_some_iff.mp h
        obtain ⟨n', hn', ha'⟩ := iha ha hjoin
        exact ⟨n' + nb + nc + m + 1, by omega, n', nb, nc, m, by omega, ha', hb, hc, hk⟩
      | second =>
        obtain ⟨b', hjoin, rfl⟩ := Option.map_eq_some_iff.mp h
        obtain ⟨n', hn', hb'⟩ := ihb hb hjoin
        exact ⟨na + n' + nc + m + 1, by omega, na, n', nc, m, by omega, ha, hb', hc, hk⟩
      | third =>
        obtain ⟨c', hjoin, rfl⟩ := Option.map_eq_some_iff.mp h
        obtain ⟨n', hn', hc'⟩ := ihc hc hjoin
        exact ⟨na + nb + n' + m + 1, by omega, na, nb, n', m, by omega, ha, hb, hc', hk⟩

/-- Three sources that have ended have a joint signal. -/
theorem combine_isSome (x : Signal α) (y : Signal β) (z : Signal γ) :
    (combine (some x) (some y) (some z)).isSome = true := by
  cases x <;> cases y <;> cases z <;> rfl

/-- A source that has not ended offers a call or a joint result. -/
theorem offers_of_outcome {m : Mono Op Res α} (h : m.outcome = none) :
    (∃ path c, m.next path = some c) ∨ ∃ path m', m.join path = some m' := by
  induction m with
  | done s => simp [outcome] at h
  | call op k => exact .inl ⟨[], _, rfl⟩
  | zip a b c k iha ihb ihc _ =>
    cases ha : a.outcome with
    | none =>
      rcases iha ha with ⟨path, call, hnext⟩ | ⟨path, a', hjoin⟩
      · exact .inl ⟨.first :: path, _, congrArg (Option.map _) hnext⟩
      · exact .inr ⟨.first :: path, _, congrArg (Option.map _) hjoin⟩
    | some x =>
      cases hb : b.outcome with
      | none =>
        rcases ihb hb with ⟨path, call, hnext⟩ | ⟨path, b', hjoin⟩
        · exact .inl ⟨.second :: path, _, congrArg (Option.map _) hnext⟩
        · exact .inr ⟨.second :: path, _, congrArg (Option.map _) hjoin⟩
      | some y =>
        cases hc : c.outcome with
        | none =>
          rcases ihc hc with ⟨path, call, hnext⟩ | ⟨path, c', hjoin⟩
          · exact .inl ⟨.third :: path, _, congrArg (Option.map _) hnext⟩
          · exact .inr ⟨.third :: path, _, congrArg (Option.map _) hjoin⟩
        | some z =>
          obtain ⟨s, hs⟩ := Option.isSome_iff_exists.mp (combine_isSome x y z)
          refine .inr ⟨[], k s, ?_⟩
          rw [join, ha, hb, hc, hs, Option.map_some]

end Mono

/-- What a source has performed leaves the rest of its bound. -/
theorem Trace.within {m m' : Mono Op Res α} {tr : List (Event Op Res)} {n : ℕ}
    (h : Trace m tr m') (hm : m.Within n) : ∃ n', n' + tr.length ≤ n ∧ m'.Within n' := by
  induction h generalizing n with
  | nil m => exact ⟨n, Nat.le_refl n, hm⟩
  | call hnext _ ih =>
    obtain ⟨n₁, hn₁, hk⟩ := hm.of_next hnext
    obtain ⟨n', hn', hm'⟩ := ih (hk _)
    exact ⟨n', by rw [List.length_cons]; omega, hm'⟩
  | join hjoin _ ih =>
    obtain ⟨n₁, hn₁, hm₁⟩ := hm.of_join hjoin
    obtain ⟨n', hn', hm'⟩ := ih hm₁
    exact ⟨n', by omega, hm'⟩

/-- The action is a step of this thread, and the environment chooses this. -/
def Action.StepsThread {S ε : Type} (i : ℕ) (env : ε) : Action S ε → Prop
  | .call j _ env' => j = i ∧ env' = env
  | .join j _ => j = i
  | _ => False

namespace System

variable {σ ε L S : Type} {sys : System Op Res σ ε L S} {P : Action S ε → Prop} {s₀ : σ}
  {w : World Op Res σ L}

/-- A thread that runs within a bound can take its steps alone, up to its end, whatever the
environment chooses for each of them. -/
theorem exec_to_end {i : ℕ} {l : L} {m : Mono Op Res Unit} {n : ℕ}
    (hthread : w.threads[i]? = some (l, m)) (hm : m.Within n) (choose : World Op Res σ L → ε) :
    ∃ as w' s, sys.exec as w = some w' ∧ as.length ≤ n ∧
      (∀ w₁ a w₂, sys.StepOf as w w₁ a w₂ → a.StepsThread i (choose w₁)) ∧
      w'.threads = w.threads.set i (l, .done s) := by
  induction n using Nat.strong_induction_on generalizing w m with
  | h n ih =>
    -- after one step, the rest of the bound is left
    have hrest : ∀ (a : Action S ε) (w₁ : World Op Res σ L) (m₁ : Mono Op Res Unit) (n₁ : ℕ),
        sys.step a w = some w₁ → a.StepsThread i (choose w) →
        w₁.threads = w.threads.set i (l, m₁) → n₁ + 1 ≤ n → m₁.Within n₁ →
        ∃ as w' s, sys.exec as w = some w' ∧ as.length ≤ n ∧
          (∀ w₁ a w₂, sys.StepOf as w w₁ a w₂ → a.StepsThread i (choose w₁)) ∧
          w'.threads = w.threads.set i (l, .done s) := by
      intro a w₁ m₁ n₁ hstep ha hthreads hn₁ hm₁
      have hlt := (List.getElem?_eq_some_iff.mp hthread).1
      have hthread₁ : w₁.threads[i]? = some (l, m₁) := by
        rw [hthreads, List.getElem?_set_self hlt]
      obtain ⟨as, w', s, hexec, hlength, hall, hend⟩ := ih n₁ hn₁ hthread₁ hm₁
      refine ⟨a :: as, w', s, ?_, ?_, fun w₂ b w₃ hb => ?_, ?_⟩
      · rw [exec, hstep, Option.bind_some, hexec]
      · rw [List.length_cons]
        omega
      · rcases stepOf_cons hstep hb with ⟨rfl, rfl⟩ | hrest
        · exact ha
        · exact hall w₂ b w₃ hrest
      · rw [hend, hthreads, List.set_set]
    cases hend : m.outcome with
    | some s =>
      obtain rfl := Mono.eq_done_of_outcome hend
      refine ⟨[], w, s, rfl, Nat.zero_le n, by simp [StepOf], ?_⟩
      obtain ⟨hlt, hget⟩ := List.getElem?_eq_some_iff.mp hthread
      rw [← hget, List.set_getElem_self]
    | none =>
      rcases Mono.offers_of_outcome hend with ⟨path, ⟨op, k⟩, hnext⟩ | ⟨path, m₁, hjoin⟩
      · obtain ⟨n₁, hn₁, hk⟩ := hm.of_next hnext
        let answer := sys.handle (choose w) w.now op w.shared
        have hstep : sys.step (.call i path (choose w)) w = some { w with
            shared := answer.2
            threads := w.threads.set i (l, k answer.1)
            log := w.log ++ [⟨w.now, i, ⟨path, op, answer.1⟩⟩] } := by
          simp only [step, hthread, hnext, Option.bind_some, Option.map_some, answer]
        exact hrest _ _ _ n₁ hstep ⟨rfl, rfl⟩ rfl hn₁ (hk _)
      · obtain ⟨n₁, hn₁, hm₁⟩ := hm.of_join hjoin
        have hstep : sys.step (.join i path) w =
            some { w with threads := w.threads.set i (l, m₁) } := by
          simp only [step, hthread, hjoin, Option.bind_some, Option.map_some]
        exact hrest _ _ _ n₁ hstep rfl rfl hn₁ hm₁

variable {bound : L → ℕ}

/-- In every run, a thread whose program runs within a bound has performed no more calls, and can
end within the rest of the bound whatever the other threads do. -/
theorem Run.ends_within (hrun : sys.Run P (World.init s₀) w)
    (hbody : ∀ l, (sys.body l).Within (bound l)) {i : ℕ} {l : L} (hi : w.labels[i]? = some l)
    (choose : World Op Res σ L → ε) :
    ∃ as w' s, sys.exec as w = some w' ∧ as.length + (w.events i).length ≤ bound l ∧
      (∀ w₁ a w₂, sys.StepOf as w w₁ a w₂ → a.StepsThread i (choose w₁)) ∧
      w'.threads = w.threads.set i (l, .done s) := by
  obtain ⟨m, hm⟩ := World.exists_thread hi
  obtain ⟨m', htr, hstand⟩ := hrun.coherent.trace i l m hm
  obtain ⟨n, hn, hm'⟩ := htr.within (hbody l)
  have hwithin : m.Within n := by
    rcases hstand with rfl | rfl
    · exact hm'
    · trivial
  obtain ⟨as, w', s, hexec, hlength, hall, hend⟩ := exec_to_end hm hwithin choose
  exact ⟨as, w', s, hexec, by omega, hall, hend⟩

/-- In every run, a thread has performed no more calls than its program allows. -/
theorem Run.length_events_le (hrun : sys.Run P (World.init s₀) w)
    (hbody : ∀ l, (sys.body l).Within (bound l)) {i : ℕ} {l : L} (hi : w.labels[i]? = some l) :
    (w.events i).length ≤ bound l := by
  obtain ⟨m, hm⟩ := World.exists_thread hi
  obtain ⟨m', htr, -⟩ := hrun.coherent.trace i l m hm
  obtain ⟨n, hn, -⟩ := htr.within (hbody l)
  omega

/-- In every run, there are no more calls than the programs of all threads allow. -/
theorem Run.length_log_le (hrun : sys.Run P (World.init s₀) w)
    (hbody : ∀ l, (sys.body l).Within (bound l)) : w.log.length ≤ (w.labels.map bound).sum := by
  have hperm := (perm_filterMap_log hrun.coherent.thread_lt some).length_eq
  have hlog : (w.log.filterMap fun e => some e.event).length = w.log.length := by simp
  have hthreads : List.Forall₂ (· ≤ ·)
      ((List.range w.threads.length).map fun i => (w.events i).length) (w.labels.map bound) := by
    rw [List.forall₂_iff_get]
    refine ⟨by simp [World.labels], fun i h₁ h₂ => ?_⟩
    rw [List.length_map] at h₂
    have hle := hrun.length_events_le hbody (List.getElem?_eq_getElem h₂)
    simpa using hle
  rw [hlog, List.length_flatMap] at hperm
  rw [hperm]
  simpa [World.events] using hthreads.sum_le_sum

end System

end ApiFirewall.Reactive
