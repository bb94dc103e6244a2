import ApiFirewall.Reactive.Runtime

/-!
# Sources that conclude

Which replies a call can get, and which of them are failures, are parameters. A source is strict if
it fails exactly where one of its calls fails, and never completes empty. A source concludes if, once
it has ended, its last call and no other answers where no call failed, and no call answers where one
failed. Strictness composes along the operators, and a source that concludes may follow strict ones.
-/

namespace ApiFirewall.Reactive

variable {Op : Type} {Res : Op → Type} {α β γ δ : Type}

/-- Every reply is one that its call can get. -/
def Possible (Can : (op : Op) → Signal (Res op) → Prop) (tr : List (Event Op Res)) : Prop :=
  ∀ e ∈ tr, Can e.op e.reply

/-- No reply is a failure. -/
def Clean (Fails : (op : Op) → Signal (Res op) → Prop) (tr : List (Event Op Res)) : Prop :=
  ∀ e ∈ tr, ¬ Fails e.op e.reply

/-- The last call answers, and no other does. -/
def AnswersLast (answer : Op → Prop) (tr : List (Event Op Res)) : Prop :=
  ∃ before e, tr = before ++ [e] ∧ answer e.op ∧ ∀ a ∈ before, ¬ answer a.op

section Lists

variable {Can Fails : (op : Op) → Signal (Res op) → Prop} {answer : Op → Prop}
  {tr tr₁ tr₂ : List (Event Op Res)} {op : Op} {r : Signal (Res op)}

@[simp] theorem possible_append :
    Possible Can (tr₁ ++ tr₂) ↔ Possible Can tr₁ ∧ Possible Can tr₂ := List.forall_mem_append

@[simp] theorem clean_nil : Clean Fails ([] : List (Event Op Res)) := by simp [Clean]

@[simp] theorem clean_append : Clean Fails (tr₁ ++ tr₂) ↔ Clean Fails tr₁ ∧ Clean Fails tr₂ :=
  List.forall_mem_append

@[simp] theorem possible_cons_top :
    Possible Can (.top op r :: tr) ↔ Can op r ∧ Possible Can tr := List.forall_mem_cons

@[simp] theorem clean_cons_top :
    Clean Fails (.top op r :: tr) ↔ ¬ Fails op r ∧ Clean Fails tr := List.forall_mem_cons

/-- The calls of one part of a `zip` can be answered as they are. -/
theorem Possible.under (h : Possible Can tr) (branch : Branch) :
    Possible Can (under branch tr) := by
  rintro ⟨path, op, r⟩ he
  exact h ⟨branch :: path, op, r⟩ (mem_under.mp he)

/-- Where a trace is merged from the parts of a `zip`, it is clean if all of them are. -/
theorem clean_iff_under (hnested : ∀ e ∈ tr, e.path ≠ []) :
    Clean Fails tr ↔ ∀ branch, Clean Fails (under branch tr) := by
  constructor
  · rintro h branch ⟨path, op, r⟩ he
    exact h ⟨branch :: path, op, r⟩ (mem_under.mp he)
  · rintro h ⟨path, op, r⟩ he
    cases path with
    | nil => exact absurd rfl (hnested _ he)
    | cons branch path => exact h branch ⟨path, op, r⟩ (mem_under.mpr he)

/-- Calls that do not answer may come before. -/
theorem AnswersLast.append_left (h : AnswersLast answer tr₂) (hquiet : ∀ e ∈ tr₁, ¬ answer e.op) :
    AnswersLast answer (tr₁ ++ tr₂) := by
  obtain ⟨before, e, rfl, he, hbefore⟩ := h
  refine ⟨tr₁ ++ before, e, (List.append_assoc ..).symm, he, ?_⟩
  exact List.forall_mem_append.mpr ⟨hquiet, hbefore⟩

end Lists

namespace Mono

variable (Can Fails : (op : Op) → Signal (Res op) → Prop) (answer : Op → Prop)

/-- The source never completes empty, and fails exactly where one of its calls fails. -/
def Strict (m : Mono Op Res α) : Prop :=
  ∀ tr s, Trace m tr (.done s) → Possible Can tr → s ≠ .empty ∧ (s = .error ↔ ¬ Clean Fails tr)

/-- Once the source has ended, its last call and no other answers where no call failed, and no call
answers where one failed. -/
def Concludes (m : Mono Op Res α) : Prop :=
  ∀ tr s, Trace m tr (.done s) → Possible Can tr →
    (Clean Fails tr → AnswersLast answer tr) ∧ (¬ Clean Fails tr → ∀ e ∈ tr, ¬ answer e.op)

variable {Can Fails answer}

/-- A strict source that has ended has a value and no failed call, or an error and a failed call. -/
theorem Strict.cases {m : Mono Op Res α} {tr : List (Event Op Res)} {s : Signal α}
    (hm : m.Strict Can Fails) (h : Trace m tr (.done s)) (hpossible : Possible Can tr) :
    (∃ a, s = .value a ∧ Clean Fails tr) ∨ (s = .error ∧ ¬ Clean Fails tr) := by
  obtain ⟨hne, herror⟩ := hm tr s h hpossible
  cases s with
  | value a =>
    refine .inl ⟨a, rfl, ?_⟩
    by_contra hfailed
    exact absurd (herror.mpr hfailed) (by simp)
  | empty => exact absurd rfl hne
  | error => exact .inr ⟨rfl, herror.mp rfl⟩

/-- A value needs no call. -/
theorem strict_just (a : α) : (just a : Mono Op Res α).Strict Can Fails := by
  intro tr s h _
  obtain ⟨rfl, hs⟩ := h.of_done
  obtain rfl := Mono.done.inj hs
  simp

/-- A call is strict if it can be answered by a value or a failure only. -/
theorem strict_await {op : Op} (h : ∀ r, Can op r → r ≠ .empty ∧ (r = .error ↔ Fails op r)) :
    (await op : Mono Op Res (Res op)).Strict Can Fails := by
  intro tr s htr hpossible
  obtain rfl := htr.ended_await
  obtain ⟨hne, herror⟩ := h s (possible_cons_top.mp hpossible).1
  refine ⟨hne, herror.trans ?_⟩
  simp

/-- A strict source may be continued by strict ones, if its error passes through. -/
theorem strict_onSignal {m : Mono Op Res α} {f : Signal α → Mono Op Res β}
    (hm : m.Strict Can Fails) (hvalue : ∀ a, (f (.value a)).Strict Can Fails)
    (herror : f .error = done .error) : (m.onSignal f).Strict Can Fails := by
  intro tr s h hpossible
  obtain ⟨tr₁, tr₂, s₁, rfl, htr₁, htr₂⟩ := h.ended_onSignal
  obtain ⟨hpossible₁, hpossible₂⟩ := possible_append.mp hpossible
  rcases hm.cases htr₁ hpossible₁ with ⟨a, rfl, hclean⟩ | ⟨rfl, hfailed⟩
  · obtain ⟨hne, hiff⟩ := hvalue a tr₂ s htr₂ hpossible₂
    exact ⟨hne, hiff.trans (by simp [hclean])⟩
  · rw [herror] at htr₂
    obtain ⟨rfl, hs⟩ := htr₂.of_done
    obtain rfl := Mono.done.inj hs
    simp [hfailed]

/-- The continuation of a `flatMap` is strict if it is so on every value. -/
theorem strict_flatMap {m : Mono Op Res α} {f : α → Mono Op Res β} (hm : m.Strict Can Fails)
    (hf : ∀ a, (f a).Strict Can Fails) : (m.flatMap f).Strict Can Fails :=
  strict_onSignal hm hf rfl

/-- Replacing the value of a strict source keeps it strict. -/
theorem strict_thenReturn {m : Mono Op Res α} (hm : m.Strict Can Fails) (b : β) :
    (m.thenReturn b).Strict Can Fails :=
  strict_onSignal hm (fun _ => strict_just b) rfl

/-- A strict source makes no use of a default. -/
theorem strict_defaultIfEmpty {m : Mono Op Res α} (hm : m.Strict Can Fails) (a : α) :
    (m.defaultIfEmpty a).Strict Can Fails :=
  strict_onSignal hm strict_just rfl

/-- A source that is strict about other failures may fail where its calls do not count, if its error
is replaced by a value. -/
theorem strict_onErrorResume {Fails' : (op : Op) → Signal (Res op) → Prop} {m : Mono Op Res α}
    (hm : m.Strict Can Fails') (hcalls : m.Emits fun op => ∀ r, ¬ Fails op r) (a : α) :
    (m.onErrorResume (just a)).Strict Can Fails := by
  intro tr s h hpossible
  obtain ⟨tr₁, tr₂, s₁, rfl, htr₁, htr₂⟩ := h.ended_onSignal
  obtain ⟨hpossible₁, -⟩ := possible_append.mp hpossible
  have hclean : Clean Fails tr₁ := fun e he => (htr₁.emits hcalls).1 e he e.reply
  rcases hm.cases htr₁ hpossible₁ with ⟨b, rfl, -⟩ | ⟨rfl, -⟩
  · obtain ⟨rfl, hs⟩ := htr₂.of_done
    obtain rfl := Mono.done.inj hs
    simp [hclean]
  · obtain ⟨rfl, hs⟩ := htr₂.of_done
    obtain rfl := Mono.done.inj hs
    simp [hclean]

/-- Which part of a `zip` has failed. -/
theorem any_isError {a : Option (Signal α)} : a.any Signal.isError = true ↔ a = some .error := by
  rcases a with _ | _ | _ | _ <;> simp [Signal.isError]

/-- Which part of a `zip` has completed empty. -/
theorem any_isEmpty {a : Option (Signal α)} : a.any Signal.isEmpty = true ↔ a = some .empty := by
  rcases a with _ | _ | _ | _ <;> simp [Signal.isEmpty]

/-- A joint signal is an error only if one of the parts failed. -/
theorem error_of_combine {a : Option (Signal α)} {b : Option (Signal β)} {c : Option (Signal γ)}
    (h : combine a b c = some .error) : a = some .error ∨ b = some .error ∨ c = some .error := by
  unfold combine at h
  split at h
  · rename_i hany
    simpa only [Bool.or_eq_true, any_isError, or_assoc] using hany
  · split at h
    · simp at h
    · split at h <;> simp at h

/-- A joint signal is empty only if one of the parts completed empty. -/
theorem empty_of_combine {a : Option (Signal α)} {b : Option (Signal β)} {c : Option (Signal γ)}
    (h : combine a b c = some .empty) : a = some .empty ∨ b = some .empty ∨ c = some .empty := by
  unfold combine at h
  split at h
  · simp at h
  · split at h
    · rename_i hany
      simpa only [Bool.or_eq_true, any_isEmpty, or_assoc] using hany
    · split at h <;> simp at h

/-- Three strict sources at once are strict: the first error is the joint one, however far the other
parts have come. -/
theorem strict_zip {a : Mono Op Res α} {b : Mono Op Res β} {c : Mono Op Res γ}
    (ha : a.Strict Can Fails) (hb : b.Strict Can Fails) (hc : c.Strict Can Fails) :
    (zip a b c done).Strict Can Fails := by
  intro tr s h hpossible
  rcases h.of_zip with ⟨_, _, _, -, hne⟩ | ⟨tr₁, tr₂, a', b', c', s₁, rfl, hparts, hjoint, hrest⟩
  · cases hne
  obtain ⟨rfl, hs⟩ := hrest.of_done
  obtain rfl := Mono.done.inj hs
  rw [List.append_nil] at hpossible ⊢
  -- what a part that has ended with a signal says about its calls
  have hfirst : ∀ x, a'.outcome = some x →
      x ≠ .empty ∧ (x = .error ↔ ¬ Clean Fails (under .first tr₁)) :=
    fun x hx => ha _ x (eq_done_of_outcome hx ▸ hparts.first) (hpossible.under .first)
  have hsecond : ∀ x, b'.outcome = some x →
      x ≠ .empty ∧ (x = .error ↔ ¬ Clean Fails (under .second tr₁)) :=
    fun x hx => hb _ x (eq_done_of_outcome hx ▸ hparts.second) (hpossible.under .second)
  have hthird : ∀ x, c'.outcome = some x →
      x ≠ .empty ∧ (x = .error ↔ ¬ Clean Fails (under .third tr₁)) :=
    fun x hx => hc _ x (eq_done_of_outcome hx ▸ hparts.third) (hpossible.under .third)
  have hclean : Clean Fails tr₁ ↔ ∀ branch, Clean Fails (under branch tr₁) :=
    clean_iff_under hparts.nested
  cases s with
  | value v =>
    obtain ⟨x, y, z⟩ := v
    obtain ⟨hx, hy, hz⟩ := eq_value_of_combine hjoint
    have hall : Clean Fails tr₁ := by
      rw [hclean]
      rintro (_ | _ | _)
      · by_contra hno
        exact absurd ((hfirst _ hx).2.mpr hno) (by simp)
      · by_contra hno
        exact absurd ((hsecond _ hy).2.mpr hno) (by simp)
      · by_contra hno
        exact absurd ((hthird _ hz).2.mpr hno) (by simp)
    simp [hall]
  | empty =>
    rcases empty_of_combine hjoint with hx | hy | hz
    · exact absurd rfl (hfirst _ hx).1
    · exact absurd rfl (hsecond _ hy).1
    · exact absurd rfl (hthird _ hz).1
  | error =>
    have hfailed : ¬ Clean Fails tr₁ := by
      rw [hclean]
      intro hall
      rcases error_of_combine hjoint with hx | hy | hz
      · exact (hfirst _ hx).2.mp rfl (hall .first)
      · exact (hsecond _ hy).2.mp rfl (hall .second)
      · exact (hthird _ hz).2.mp rfl (hall .third)
    simp [hfailed]

/-- A call that answers and cannot fail concludes. -/
theorem concludes_await {op : Op} (hanswer : answer op) (h : ∀ r, Can op r → ¬ Fails op r) :
    (await op : Mono Op Res (Res op)).Concludes Can Fails answer := by
  intro tr s htr hpossible
  obtain rfl := htr.ended_await
  have hclean : ¬ Fails op s := h s (possible_cons_top.mp hpossible).1
  refine ⟨fun _ => ⟨[], .top op s, rfl, hanswer, by simp⟩, fun hfailed => ?_⟩
  exact absurd (clean_cons_top.mpr ⟨hclean, clean_nil⟩) hfailed

/-- A call that does not answer may be continued by what concludes, where it has not failed, and by
what does not answer, where it has. -/
theorem concludes_call {op : Op} {k : Signal (Res op) → Mono Op Res α} (hquiet : ¬ answer op)
    (hclean : ∀ r, Can op r → ¬ Fails op r → (k r).Concludes Can Fails answer)
    (hfailed : ∀ r, Can op r → Fails op r → (k r).Emits fun op => ¬ answer op) :
    (call op k).Concludes Can Fails answer := by
  intro tr s htr hpossible
  rcases htr.of_call with ⟨-, hne⟩ | ⟨r, rest, rfl, hrest⟩
  · cases hne
  obtain ⟨hr, hpossible₁⟩ := possible_cons_top.mp hpossible
  by_cases hfails : Fails op r
  · refine ⟨fun h => absurd hfails (clean_cons_top.mp h).1, fun _ => ?_⟩
    exact List.forall_mem_cons.mpr ⟨hquiet, (hrest.emits (hfailed r hr hfails)).1⟩
  · obtain ⟨hanswers, hsilent⟩ := hclean r hr hfails rest s hrest hpossible₁
    constructor
    · intro h
      have hsilent₁ : ∀ e ∈ [Event.top op r], ¬ answer e.op := List.forall_mem_singleton.mpr hquiet
      exact (hanswers (clean_cons_top.mp h).2).append_left hsilent₁
    · intro h
      refine List.forall_mem_cons.mpr ⟨hquiet, hsilent fun hrestclean => h ?_⟩
      exact clean_cons_top.mpr ⟨hfails, hrestclean⟩

/-- A strict source that does not answer may be continued by what concludes, if its error passes
through. -/
theorem concludes_onSignal {m : Mono Op Res α} {f : Signal α → Mono Op Res β}
    (hm : m.Strict Can Fails) (hquiet : m.Emits fun op => ¬ answer op)
    (hvalue : ∀ a, (f (.value a)).Concludes Can Fails answer) (herror : f .error = done .error) :
    (m.onSignal f).Concludes Can Fails answer := by
  intro tr s h hpossible
  obtain ⟨tr₁, tr₂, s₁, rfl, htr₁, htr₂⟩ := h.ended_onSignal
  obtain ⟨hpossible₁, hpossible₂⟩ := possible_append.mp hpossible
  have hsilent₁ := (htr₁.emits hquiet).1
  rcases hm.cases htr₁ hpossible₁ with ⟨a, rfl, hclean⟩ | ⟨rfl, hfailed⟩
  · obtain ⟨hanswers, hsilent⟩ := hvalue a tr₂ s htr₂ hpossible₂
    constructor
    · intro hall
      exact (hanswers (clean_append.mp hall).2).append_left hsilent₁
    · intro hsome
      refine List.forall_mem_append.mpr ⟨hsilent₁, hsilent fun hclean₂ => hsome ?_⟩
      exact clean_append.mpr ⟨hclean, hclean₂⟩
  · rw [herror] at htr₂
    obtain ⟨rfl, -⟩ := htr₂.of_done
    rw [List.append_nil]
    exact ⟨fun hclean => absurd hclean hfailed, fun _ => hsilent₁⟩

/-- What concludes may follow the value of a strict source. -/
theorem concludes_flatMap {m : Mono Op Res α} {f : α → Mono Op Res β} (hm : m.Strict Can Fails)
    (hquiet : m.Emits fun op => ¬ answer op) (hf : ∀ a, (f a).Concludes Can Fails answer) :
    (m.flatMap f).Concludes Can Fails answer :=
  concludes_onSignal hm hquiet hf rfl

/-- What concludes may follow a strict source. -/
theorem concludes_andThen {m : Mono Op Res α} {next : Mono Op Res β} (hm : m.Strict Can Fails)
    (hquiet : m.Emits fun op => ¬ answer op) (hnext : next.Concludes Can Fails answer) :
    (m.andThen next).Concludes Can Fails answer :=
  concludes_onSignal hm hquiet (fun _ => hnext) rfl

end Mono

/-- The action does not abandon this thread. -/
def Action.Keeps {S ε : Type} (i : ℕ) : Action S ε → Prop
  | .cancel j => j ≠ i
  | _ => True

variable {σ ε L S : Type} {sys : System Op Res σ ε L S} {w : World Op Res σ L}

/-- A thread that is never abandoned stands where its calls have led it. -/
theorem System.Run.trace_of_kept {s : σ} {i : ℕ} (h : sys.Run (Action.Keeps i) (World.init s) w)
    {l : L} {m : Mono Op Res Unit} (hm : w.threads[i]? = some (l, m)) :
    Trace (sys.body l) (w.events i) m := by
  induction h generalizing l m with
  | refl => simp [World.init] at hm
  | @step w w' a hrun ha hstep ih =>
    cases a with
    | tick d =>
      obtain rfl := Option.some.inj hstep
      exact ih hm
    | spawn st =>
      obtain ⟨l', -, rfl⟩ := step_spawn hstep
      rw [List.getElem?_append] at hm
      split at hm
      · exact ih hm
      · rename_i hi
        obtain ⟨rfl, rfl⟩ := Prod.mk.inj (List.mem_singleton.mp (List.mem_of_getElem? hm))
        change Trace (sys.body l) (w.events i) (sys.body l)
        rw [hrun.coherent.events_eq_nil (Nat.le_of_not_lt hi)]
        exact .nil _
    | call j path env =>
      obtain ⟨l', m', op, k, hm', hnext, rfl⟩ := step_call hstep
      simp only [World.events, eventsOf_concat]
      rcases getElem?_set_cases hm with ⟨rfl, heq⟩ | ⟨hne, hold⟩
      · obtain ⟨rfl, rfl⟩ := Prod.mk.inj heq
        rw [if_pos rfl]
        exact (ih hm').snoc_call hnext _
      · rw [if_neg hne]
        exact ih hold
    | join j path =>
      obtain ⟨l', m', m₁, hm', hjoin, rfl⟩ := step_join hstep
      rcases getElem?_set_cases hm with ⟨rfl, heq⟩ | ⟨-, hold⟩
      · obtain ⟨rfl, rfl⟩ := Prod.mk.inj heq
        exact (ih hm').snoc_join hjoin
      · exact ih hold
    | cancel j =>
      obtain ⟨l', m', hm', rfl⟩ := step_cancel hstep
      rcases getElem?_set_cases hm with ⟨rfl, -⟩ | ⟨-, hold⟩
      · exact absurd rfl ha
      · exact ih hold

end ApiFirewall.Reactive
