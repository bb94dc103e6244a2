import ApiFirewall.Reactive.Mono

/-!
# Traces of one source

A trace lists the calls a source has performed, with their replies and with the position in
nested `zip`s that performed them. The rules below take a trace apart along the operators:
an ended source has performed nothing, a call comes first, sequencing splits the trace in
two, and the first phase of a `zip` is a merge of traces of its parts.
-/

namespace ApiFirewall.Reactive

variable {Op : Type} {Res : Op → Type} {α β γ δ : Type}

/-- One performed call. -/
structure Event (Op : Type) (Res : Op → Type) where
  path : List Branch
  op : Op
  reply : Signal (Res op)

/-- The call at top level. -/
def Event.top (op : Op) (reply : Signal (Res op)) : Event Op Res := ⟨[], op, reply⟩

/-- The same call seen from inside one part of a `zip`, if that part performed it. -/
def Event.under? (branch : Branch) (e : Event Op Res) : Option (Event Op Res) :=
  match e.path with
  | b :: path => if b = branch then some { e with path := path } else none
  | [] => none

/-- The calls of one part of a `zip`. -/
def under (branch : Branch) (events : List (Event Op Res)) : List (Event Op Res) :=
  events.filterMap (Event.under? branch)

/-- Every performed call is an element of the part that performed it. -/
theorem mem_under {branch : Branch} {events : List (Event Op Res)} {path : List Branch}
    {op : Op} {reply : Signal (Res op)} :
    (⟨path, op, reply⟩ : Event Op Res) ∈ under branch events ↔
      (⟨branch :: path, op, reply⟩ : Event Op Res) ∈ events := by
  simp only [under, List.mem_filterMap]
  constructor
  · rintro ⟨⟨p, o, r⟩, hmem, heq⟩
    cases p with
    | nil => simp [Event.under?] at heq
    | cons b p =>
      by_cases hb : b = branch
      · subst hb
        simp only [Event.under?, if_true, Option.some.injEq, Event.mk.injEq] at heq
        obtain ⟨rfl, rfl, hr⟩ := heq
        cases hr
        exact hmem
      · simp [Event.under?, hb] at heq
  · intro hmem
    exact ⟨_, hmem, by simp [Event.under?]⟩

/-- Performing calls and delivering joint results, from one program to a later one. -/
inductive Trace : Mono Op Res α → List (Event Op Res) → Mono Op Res α → Prop where
  | nil (m : Mono Op Res α) : Trace m [] m
  | call {m m' : Mono Op Res α} {path : List Branch} {op : Op}
      {k : Signal (Res op) → Mono Op Res α} {r : Signal (Res op)} {tr : List (Event Op Res)}
      (hnext : m.next path = some ⟨op, k⟩) (hrest : Trace (k r) tr m') :
      Trace m (⟨path, op, r⟩ :: tr) m'
  | join {m m₁ m' : Mono Op Res α} {path : List Branch} {tr : List (Event Op Res)}
      (hjoin : m.join path = some m₁) (hrest : Trace m₁ tr m') : Trace m tr m'

namespace Trace

/-- Traces compose. -/
theorem append {m m₁ m₂ : Mono Op Res α} {tr₁ tr₂ : List (Event Op Res)}
    (h₁ : Trace m tr₁ m₁) (h₂ : Trace m₁ tr₂ m₂) : Trace m (tr₁ ++ tr₂) m₂ := by
  induction h₁ with
  | nil m => exact h₂
  | call hnext _ ih => exact .call hnext (ih h₂)
  | join hjoin _ ih => exact .join hjoin (ih h₂)

/-- A trace can be extended by the next call. -/
theorem snoc_call {m m₁ : Mono Op Res α} {tr : List (Event Op Res)} {path : List Branch}
    {op : Op} {k : Signal (Res op) → Mono Op Res α} (h : Trace m tr m₁)
    (hnext : m₁.next path = some ⟨op, k⟩) (r : Signal (Res op)) :
    Trace m (tr ++ [⟨path, op, r⟩]) (k r) :=
  h.append (.call hnext (.nil _))

/-- A trace can be extended by delivering a joint result. -/
theorem snoc_join {m m₁ m₂ : Mono Op Res α} {tr : List (Event Op Res)} {path : List Branch}
    (h : Trace m tr m₁) (hjoin : m₁.join path = some m₂) : Trace m tr m₂ := by
  simpa only [List.append_nil] using h.append (.join hjoin (.nil _))

/-- Admitted programs only perform admitted calls. -/
theorem emits {P : Op → Prop} {m m' : Mono Op Res α} {tr : List (Event Op Res)}
    (h : Trace m tr m') (hm : m.Emits P) : (∀ e ∈ tr, P e.op) ∧ m'.Emits P := by
  induction h with
  | nil m => exact ⟨by simp, hm⟩
  | call hnext _ ih =>
    obtain ⟨hp, hk⟩ := hm.of_next hnext
    obtain ⟨hall, hrest⟩ := ih (hk _)
    exact ⟨List.forall_mem_cons.mpr ⟨hp, hall⟩, hrest⟩
  | join hjoin _ ih => exact ih (hm.of_join hjoin)

/-- The last call of an admitted program is admitted. -/
theorem emits_concat {P : Op → Prop} {m m' : Mono Op Res α} {tr : List (Event Op Res)}
    {e : Event Op Res} (h : Trace m (tr ++ [e]) m') (hm : m.Emits P) : P e.op :=
  (h.emits hm).1 e (by simp)

/-- An ended source performs nothing. -/
theorem of_done {s : Signal α} {m' : Mono Op Res α} {tr : List (Event Op Res)}
    (h : Trace (.done s) tr m') : tr = [] ∧ m' = .done s := by
  cases h with
  | nil => exact ⟨rfl, rfl⟩
  | call hnext _ => simp [Mono.next] at hnext
  | join hjoin _ => simp [Mono.join] at hjoin

/-- A source that starts with a call has performed nothing, or that call first. -/
theorem of_call {op : Op} {k : Signal (Res op) → Mono Op Res α} {m' : Mono Op Res α}
    {tr : List (Event Op Res)} (h : Trace (.call op k) tr m') :
    (tr = [] ∧ m' = .call op k) ∨ ∃ r rest, tr = .top op r :: rest ∧ Trace (k r) rest m' := by
  cases h with
  | nil => exact .inl ⟨rfl, rfl⟩
  | @call _ _ path op' k' r rest hnext hrest =>
    cases path with
    | nil =>
      simp only [Mono.next, Option.some.injEq, Sigma.mk.injEq] at hnext
      obtain ⟨rfl, hk⟩ := hnext
      cases hk
      exact .inr ⟨r, rest, rfl, hrest⟩
    | cons b path => simp [Mono.next] at hnext
  | @join _ _ _ path _ hjoin _ => cases path <;> simp [Mono.join] at hjoin

end Trace

/-- Until the first source has ended, its continuation does not affect what is offered. -/
private theorem next_onSignal (m : Mono Op Res α) (f : Signal α → Mono Op Res β)
    (hm : m.outcome = none) (path : List Branch) :
    (m.onSignal f).next path =
      (m.next path).map fun n => ⟨n.1, fun r => (n.2 r).onSignal f⟩ := by
  cases m with
  | done s => simp [Mono.outcome] at hm
  | call op k => cases path <;> rfl
  | zip a b c k =>
    cases path with
    | nil => rfl
    | cons branch path =>
      cases branch <;> simp only [Mono.onSignal_zip, Mono.next, Option.map_map] <;> rfl

/-- Until the first source has ended, its continuation does not affect joint results. -/
private theorem join_onSignal (m : Mono Op Res α) (f : Signal α → Mono Op Res β)
    (hm : m.outcome = none) (path : List Branch) :
    (m.onSignal f).join path = (m.join path).map fun m₁ => m₁.onSignal f := by
  cases m with
  | done s => simp [Mono.outcome] at hm
  | call op k => cases path <;> rfl
  | zip a b c k =>
    cases path with
    | nil => simp only [Mono.onSignal_zip, Mono.join, Option.map_map]; rfl
    | cons branch path =>
      cases branch <;> simp only [Mono.onSignal_zip, Mono.join, Option.map_map] <;> rfl

/-- A sequenced source is in its first part, or the first part has ended and the rest of the
trace belongs to the continuation on its signal. -/
private theorem Trace.splits_onSignal {m : Mono Op Res α} {f : Signal α → Mono Op Res β}
    {m' : Mono Op Res β} {tr : List (Event Op Res)} (h : Trace (m.onSignal f) tr m') :
    (∃ m₁, Trace m tr m₁ ∧ m' = m₁.onSignal f) ∨
      ∃ tr₁ tr₂ s, tr = tr₁ ++ tr₂ ∧ Trace m tr₁ (.done s) ∧ Trace (f s) tr₂ m' := by
  generalize hn : m.onSignal f = n at h
  induction h generalizing m with
  | nil n => exact .inl ⟨m, .nil m, hn.symm⟩
  | @call n m' path op k r tr hnext hrest ih =>
    subst hn
    rcases ho : m.outcome with _ | s
    · rw [next_onSignal m f ho] at hnext
      obtain ⟨n₁, hn₁, heq⟩ := Option.map_eq_some_iff.mp hnext
      obtain ⟨op₁, k₁⟩ := n₁
      simp only [Sigma.mk.injEq] at heq
      obtain ⟨rfl, hk⟩ := heq
      cases hk
      rcases ih rfl with ⟨m₁, htr, rfl⟩ | ⟨tr₁, tr₂, s, rfl, htr₁, htr₂⟩
      · exact .inl ⟨m₁, .call hn₁ htr, rfl⟩
      · exact .inr ⟨_ :: tr₁, tr₂, s, rfl, .call hn₁ htr₁, htr₂⟩
    · obtain rfl := Mono.eq_done_of_outcome ho
      exact .inr ⟨[], _, s, rfl, .nil _, .call hnext hrest⟩
  | @join n n₁ m' path tr hjoin hrest ih =>
    subst hn
    rcases ho : m.outcome with _ | s
    · rw [join_onSignal m f ho] at hjoin
      obtain ⟨m₁, hm₁, rfl⟩ := Option.map_eq_some_iff.mp hjoin
      rcases ih rfl with ⟨m₂, htr, rfl⟩ | ⟨tr₁, tr₂, s, rfl, htr₁, htr₂⟩
      · exact .inl ⟨m₂, .join hm₁ htr, rfl⟩
      · exact .inr ⟨tr₁, tr₂, s, rfl, .join hm₁ htr₁, htr₂⟩
    · obtain rfl := Mono.eq_done_of_outcome ho
      exact .inr ⟨[], _, s, rfl, .nil _, .join hjoin hrest⟩

/-- A sequenced source is still in its first part, which has not ended, or the first part has
ended and the rest of the trace belongs to the continuation on its signal. -/
theorem Trace.of_onSignal {m : Mono Op Res α} {f : Signal α → Mono Op Res β}
    {m' : Mono Op Res β} {tr : List (Event Op Res)} (h : Trace (m.onSignal f) tr m') :
    (∃ m₁, Trace m tr m₁ ∧ m₁.outcome = none ∧ m'.outcome = none) ∨
      ∃ tr₁ tr₂ s, tr = tr₁ ++ tr₂ ∧ Trace m tr₁ (.done s) ∧ Trace (f s) tr₂ m' := by
  rcases h.splits_onSignal with ⟨m₁, htr, rfl⟩ | hended
  · cases m₁ with
    | done s => exact .inr ⟨tr, [], s, (List.append_nil tr).symm, htr, .nil _⟩
    | call op k => exact .inl ⟨_, htr, rfl, rfl⟩
    | zip a b c k => exact .inl ⟨_, htr, rfl, rfl⟩
  · exact .inr hended

/-- Where a sequenced source has ended, its first part has, and so has the continuation on its
signal. -/
theorem Trace.ended_onSignal {m : Mono Op Res α} {f : Signal α → Mono Op Res β} {s : Signal β}
    {tr : List (Event Op Res)} (h : Trace (m.onSignal f) tr (.done s)) :
    ∃ tr₁ tr₂ s', tr = tr₁ ++ tr₂ ∧ Trace m tr₁ (.done s') ∧ Trace (f s') tr₂ (.done s) := by
  rcases h.of_onSignal with ⟨m₁, -, -, hm⟩ | hended
  · simp [Mono.outcome] at hm
  · exact hended

/-- The source has ended with a value. -/
def Mono.Completes (m : Mono Op Res α) : Prop := ∃ a, m.outcome = some (.value a)

/-- A source that has not ended has no value. -/
theorem not_completes_of_outcome {m : Mono Op Res α} (h : m.outcome = none) :
    ¬ m.Completes := by
  rintro ⟨a, ha⟩
  rw [h] at ha
  simp at ha

/-- A source that ended with a bare completion or an error has no value. -/
theorem not_completes_done {s : Signal α} (h : ∀ a, s ≠ .value a) :
    ¬ (Mono.done s : Mono Op Res α).Completes := by
  rintro ⟨a, ha⟩
  exact h a (Option.some.inj ha)

/-- A `flatMap` is still in its first part, which has not delivered a value, or its first part
has ended with a value and the rest of the trace belongs to the continuation on it. -/
theorem Trace.of_flatMap {m : Mono Op Res α} {f : α → Mono Op Res β} {m' : Mono Op Res β}
    {tr : List (Event Op Res)} (h : Trace (m.flatMap f) tr m') :
    (∃ m₁, Trace m tr m₁ ∧ ¬ m₁.Completes ∧ ¬ m'.Completes) ∨
      ∃ tr₁ tr₂ a, tr = tr₁ ++ tr₂ ∧ Trace m tr₁ (.done (.value a)) ∧ Trace (f a) tr₂ m' := by
  rcases h.of_onSignal with ⟨m₁, htr, hm₁, hm⟩ | ⟨tr₁, tr₂, s, rfl, htr₁, htr₂⟩
  · exact .inl ⟨m₁, htr, not_completes_of_outcome hm₁, not_completes_of_outcome hm⟩
  · cases s with
    | value a => exact .inr ⟨tr₁, tr₂, a, rfl, htr₁, htr₂⟩
    | empty =>
      obtain ⟨rfl, rfl⟩ := htr₂.of_done
      have hs : ∀ {γ : Type} (c : γ), Signal.empty ≠ .value c := by simp
      exact .inl ⟨_, by rw [List.append_nil]; exact htr₁, not_completes_done hs,
        not_completes_done hs⟩
    | error =>
      obtain ⟨rfl, rfl⟩ := htr₂.of_done
      have hs : ∀ {γ : Type} (c : γ), Signal.error ≠ .value c := by simp
      exact .inl ⟨_, by rw [List.append_nil]; exact htr₁, not_completes_done hs,
        not_completes_done hs⟩

/-- One call performs nothing or itself, and ends with its reply. -/
theorem Trace.of_await {op : Op} {m' : Mono Op Res (Res op)} {tr : List (Event Op Res)}
    (h : Trace (Mono.await op) tr m') :
    (tr = [] ∧ m' = .await op) ∨ ∃ r, tr = [.top op r] ∧ m' = .done r := by
  rcases h.of_call with hnil | ⟨r, rest, rfl, hrest⟩
  · exact .inl hnil
  · obtain ⟨rfl, rfl⟩ := hrest.of_done
    exact .inr ⟨r, rfl, rfl⟩

/-- One call that has ended has been performed, and its reply is how it ended. -/
theorem Trace.ended_await {op : Op} {r : Signal (Res op)} {tr : List (Event Op Res)}
    (h : Trace (Mono.await op) tr (.done r)) : tr = [.top op r] := by
  rcases h.of_await with ⟨-, hne⟩ | ⟨r', htr, hr⟩
  · simp [Mono.await] at hne
  · rw [htr, Mono.done.inj hr]

/-- A call with a continuation performs nothing, only itself without a value, or itself with a
value and then what the continuation does. -/
theorem Trace.of_await_flatMap {op : Op} {f : Res op → Mono Op Res β} {m' : Mono Op Res β}
    {tr : List (Event Op Res)} (h : Trace ((Mono.await op).flatMap f) tr m') :
    (¬ m'.Completes ∧ (tr = [] ∨ ∃ r, tr = [.top op r] ∧ ∀ a, r ≠ .value a)) ∨
      ∃ a rest, tr = .top op (.value a) :: rest ∧ Trace (f a) rest m' := by
  rcases h.of_flatMap with ⟨m₁, htr, hm₁, hm⟩ | ⟨tr₁, tr₂, a, rfl, htr₁, htr₂⟩
  · rcases htr.of_await with ⟨rfl, -⟩ | ⟨r, rfl, rfl⟩
    · exact .inl ⟨hm, .inl rfl⟩
    · exact .inl ⟨hm, .inr ⟨r, rfl, fun a ha => hm₁ ⟨a, by rw [ha]; rfl⟩⟩⟩
  · obtain rfl := htr₁.ended_await
    exact .inr ⟨a, tr₂, rfl, htr₂⟩

/-- A `flatMap` that has ended has ended with its first part, without a value, or its first part has
ended with a value and so has the continuation on it. -/
theorem Trace.ended_flatMap {m : Mono Op Res α} {f : α → Mono Op Res β} {s : Signal β}
    {tr : List (Event Op Res)} (h : Trace (m.flatMap f) tr (.done s)) :
    (∃ s', Trace m tr (.done s') ∧ (∀ a, s' ≠ .value a) ∧ ∀ b, s ≠ .value b) ∨
      ∃ tr₁ tr₂ a, tr = tr₁ ++ tr₂ ∧ Trace m tr₁ (.done (.value a)) ∧
        Trace (f a) tr₂ (.done s) := by
  obtain ⟨tr₁, tr₂, s', rfl, htr₁, htr₂⟩ := h.ended_onSignal
  cases s' with
  | value a => exact .inr ⟨tr₁, tr₂, a, rfl, htr₁, htr₂⟩
  | empty =>
    obtain ⟨rfl, hs⟩ := htr₂.of_done
    exact .inl ⟨.empty, by rwa [List.append_nil], by simp, by simp [Mono.done.inj hs]⟩
  | error =>
    obtain ⟨rfl, hs⟩ := htr₂.of_done
    exact .inl ⟨.error, by rwa [List.append_nil], by simp, by simp [Mono.done.inj hs]⟩

/-- A call with a continuation that has ended was answered without a value, and nothing followed, or
it was answered with a value and the continuation has ended. -/
theorem Trace.ended_await_flatMap {op : Op} {f : Res op → Mono Op Res β} {s : Signal β}
    {tr : List (Event Op Res)} (h : Trace ((Mono.await op).flatMap f) tr (.done s)) :
    (∃ r, tr = [.top op r] ∧ (∀ a, r ≠ .value a) ∧ ∀ b, s ≠ .value b) ∨
      ∃ a rest, tr = .top op (.value a) :: rest ∧ Trace (f a) rest (.done s) := by
  rcases h.ended_flatMap with ⟨s', htr, hs', hs⟩ | ⟨tr₁, tr₂, a, rfl, htr₁, htr₂⟩
  · exact .inl ⟨s', htr.ended_await, hs', hs⟩
  · obtain rfl := htr₁.ended_await
    exact .inr ⟨a, tr₂, rfl, htr₂⟩

/-- A source with a fallback performs what the source does, and ends with its value if at all,
or what the source does until it fails and then what the fallback does. -/
theorem Trace.of_onErrorResume {m fallback m' : Mono Op Res α} {tr : List (Event Op Res)}
    (h : Trace (m.onErrorResume fallback) tr m') :
    (∃ m₁, Trace m tr m₁ ∧ ∀ a, m'.outcome = some (.value a) → m₁ = .done (.value a)) ∨
      ∃ tr₁ tr₂, tr = tr₁ ++ tr₂ ∧ Trace m tr₁ (.done .error) ∧ Trace fallback tr₂ m' := by
  rcases h.of_onSignal with ⟨m₁, htr, -, hm⟩ | ⟨tr₁, tr₂, s, rfl, htr₁, htr₂⟩
  · exact .inl ⟨m₁, htr, fun a ha => by simp [hm] at ha⟩
  · cases s with
    | error => exact .inr ⟨tr₁, tr₂, rfl, htr₁, htr₂⟩
    | value a =>
      obtain ⟨rfl, rfl⟩ := htr₂.of_done
      exact .inl ⟨_, by rw [List.append_nil]; exact htr₁, fun a ha => by cases ha; rfl⟩
    | empty =>
      obtain ⟨rfl, rfl⟩ := htr₂.of_done
      exact .inl ⟨_, by rw [List.append_nil]; exact htr₁, fun a ha => by cases ha⟩

/-- What follows a source that did not fail is what its continuation does. -/
theorem Trace.of_andThen {m : Mono Op Res α} {next m' : Mono Op Res β}
    {tr : List (Event Op Res)} (h : Trace (m.andThen next) tr m') :
    (∃ m₁, Trace m tr m₁ ∧ ¬ m'.Completes) ∨
      ∃ tr₁ tr₂ s, tr = tr₁ ++ tr₂ ∧ s ≠ .error ∧ Trace m tr₁ (.done s) ∧ Trace next tr₂ m' := by
  rcases h.of_onSignal with ⟨m₁, htr, -, hm⟩ | ⟨tr₁, tr₂, s, rfl, htr₁, htr₂⟩
  · exact .inl ⟨m₁, htr, not_completes_of_outcome hm⟩
  · cases s with
    | value a => exact .inr ⟨tr₁, tr₂, _, rfl, by simp, htr₁, htr₂⟩
    | empty => exact .inr ⟨tr₁, tr₂, _, rfl, by simp, htr₁, htr₂⟩
    | error =>
      obtain ⟨rfl, rfl⟩ := htr₂.of_done
      exact .inl ⟨_, by rw [List.append_nil]; exact htr₁, not_completes_done (by simp)⟩

/-- A call whose reply is replaced by a value performs nothing or itself, and ends with that value
if the call did not fail. -/
theorem Trace.of_await_thenReturn {op : Op} {b : β} {m' : Mono Op Res β}
    {tr : List (Event Op Res)} (h : Trace ((Mono.await op).thenReturn b) tr m') :
    (tr = [] ∧ m'.outcome = none) ∨
      ∃ r, tr = [.top op r] ∧ ∀ s, m'.outcome = some s → s = .value b ∨ s = .error := by
  rcases h.of_onSignal with ⟨m₁, htr, -, hm⟩ | ⟨tr₁, tr₂, s, rfl, htr₁, htr₂⟩
  · rcases htr.of_await with ⟨rfl, -⟩ | ⟨r, rfl, -⟩
    · exact .inl ⟨rfl, hm⟩
    · exact .inr ⟨r, rfl, fun s hs => by simp [hm] at hs⟩
  · obtain rfl := htr₁.ended_await
    right
    cases s with
    | error =>
      obtain ⟨rfl, rfl⟩ := htr₂.of_done
      exact ⟨_, rfl, fun s hs => .inr (Option.some.inj hs).symm⟩
    | value a =>
      obtain ⟨rfl, rfl⟩ := htr₂.of_done
      exact ⟨_, rfl, fun s hs => .inl (Option.some.inj hs).symm⟩
    | empty =>
      obtain ⟨rfl, rfl⟩ := htr₂.of_done
      exact ⟨_, rfl, fun s hs => .inl (Option.some.inj hs).symm⟩

/-- A source with a default performs what the source does, and ends with a value only if the
source ended with it, or ended empty and it is the default. -/
theorem Trace.of_defaultIfEmpty {m m' : Mono Op Res α} {d : α} {tr : List (Event Op Res)}
    (h : Trace (m.defaultIfEmpty d) tr m') :
    ∃ m₁, Trace m tr m₁ ∧ ∀ a, m'.outcome = some (.value a) →
      m₁.outcome = some (.value a) ∨ (m₁.outcome = some .empty ∧ a = d) := by
  rcases h.of_onSignal with ⟨m₁, htr, -, hm⟩ | ⟨tr₁, tr₂, s, rfl, htr₁, htr₂⟩
  · exact ⟨m₁, htr, fun a ha => by simp [hm] at ha⟩
  · obtain rfl : tr₂ = [] := by cases s <;> exact htr₂.of_done.1
    rw [List.append_nil]
    refine ⟨_, htr₁, fun a ha => ?_⟩
    cases s with
    | value b =>
      obtain ⟨-, rfl⟩ := htr₂.of_done
      exact .inl ha
    | empty =>
      obtain ⟨-, rfl⟩ := htr₂.of_done
      exact .inr ⟨rfl, by simpa [Mono.outcome] using ha.symm⟩
    | error =>
      obtain ⟨-, rfl⟩ := htr₂.of_done
      simp [Mono.outcome] at ha

/-- The calls so far begin the given sequence, and make it up once the source has completed. -/
def Follows (ops : List Op) (tr : List (Event Op Res)) (m' : Mono Op Res α) : Prop :=
  tr.map Event.op <+: ops ∧ (m'.Completes → tr.map Event.op = ops)

/-- One call is a sequence of one. -/
theorem Follows.await {op : Op} {m' : Mono Op Res (Res op)} {tr : List (Event Op Res)}
    (h : Trace (Mono.await op) tr m') : Follows [op] tr m' := by
  rcases h.of_await with ⟨rfl, rfl⟩ | ⟨r, rfl, rfl⟩
  · exact ⟨List.nil_prefix, fun hm => absurd hm (not_completes_of_outcome rfl)⟩
  · exact ⟨List.prefix_rfl, fun _ => rfl⟩

/-- A call comes before what its continuation does. -/
theorem Follows.cons {op : Op} {ops : List Op} {f : Res op → Mono Op Res β} {m' : Mono Op Res β}
    {tr : List (Event Op Res)} (h : Trace ((Mono.await op).flatMap f) tr m')
    (hf : ∀ a rest, Trace (f a) rest m' → Follows ops rest m') : Follows (op :: ops) tr m' := by
  rcases h.of_await_flatMap with ⟨hm, rfl | ⟨r, rfl, -⟩⟩ | ⟨a, rest, rfl, hrest⟩
  · exact ⟨List.nil_prefix, fun hc => absurd hc hm⟩
  · exact ⟨⟨ops, rfl⟩, fun hc => absurd hc hm⟩
  · obtain ⟨hpre, hall⟩ := hf a rest hrest
    exact ⟨(List.prefix_cons_inj op).mpr hpre, fun hc => congrArg (op :: ·) (hall hc)⟩

/-- A call comes before what follows its completion. -/
theorem Follows.andThen {op : Op} {ops : List Op} {next m' : Mono Op Res β}
    {tr : List (Event Op Res)} (h : Trace ((Mono.await op).andThen next) tr m')
    (hnext : ∀ rest, Trace next rest m' → Follows ops rest m') : Follows (op :: ops) tr m' := by
  rcases h.of_andThen with ⟨m₁, htr, hm⟩ | ⟨tr₁, tr₂, s, rfl, -, htr₁, htr₂⟩
  · rcases htr.of_await with ⟨rfl, -⟩ | ⟨r, rfl, -⟩
    · exact ⟨List.nil_prefix, fun hc => absurd hc hm⟩
    · exact ⟨⟨ops, rfl⟩, fun hc => absurd hc hm⟩
  · obtain rfl := htr₁.ended_await
    obtain ⟨hpre, hall⟩ := hnext tr₂ htr₂
    exact ⟨(List.prefix_cons_inj op).mpr hpre, fun hc => congrArg (op :: ·) (hall hc)⟩

/-- A merge of traces of the three parts of a `zip`. -/
structure Parts (a : Mono Op Res α) (b : Mono Op Res β) (c : Mono Op Res γ)
    (tr : List (Event Op Res)) (a' : Mono Op Res α) (b' : Mono Op Res β)
    (c' : Mono Op Res γ) : Prop where
  nested : ∀ e ∈ tr, e.path ≠ []
  first : Trace a (under .first tr) a'
  second : Trace b (under .second tr) b'
  third : Trace c (under .third tr) c'

/-- The part that performs a call records it. -/
theorem under_cons_same (branch : Branch) (path : List Branch) (op : Op) (r : Signal (Res op))
    (tr : List (Event Op Res)) :
    under branch (⟨branch :: path, op, r⟩ :: tr) = ⟨path, op, r⟩ :: under branch tr := by
  simp [under, Event.under?]

/-- The other parts do not. -/
theorem under_cons_other {branch other : Branch} (hne : other ≠ branch) (path : List Branch)
    (op : Op) (r : Signal (Res op)) (tr : List (Event Op Res)) :
    under branch (⟨other :: path, op, r⟩ :: tr) = under branch tr := by
  simp [under, Event.under?, hne]

section Parts

variable {a a₁ a' : Mono Op Res α} {b b₁ b' : Mono Op Res β} {c c₁ c' : Mono Op Res γ}
  {tr : List (Event Op Res)} {path : List Branch} {op : Op} {r : Signal (Res op)}

/-- A call of the first part extends a merge. -/
private theorem Parts.call_first {k : Signal (Res op) → Mono Op Res α}
    (hnext : a.next path = some ⟨op, k⟩) (h : Parts (k r) b c tr a' b' c') :
    Parts a b c (⟨.first :: path, op, r⟩ :: tr) a' b' c' where
  nested := List.forall_mem_cons.mpr ⟨by simp, h.nested⟩
  first := by rw [under_cons_same]; exact .call hnext h.first
  second := by rw [under_cons_other (by decide)]; exact h.second
  third := by rw [under_cons_other (by decide)]; exact h.third

/-- A call of the second part extends a merge. -/
private theorem Parts.call_second {k : Signal (Res op) → Mono Op Res β}
    (hnext : b.next path = some ⟨op, k⟩) (h : Parts a (k r) c tr a' b' c') :
    Parts a b c (⟨.second :: path, op, r⟩ :: tr) a' b' c' where
  nested := List.forall_mem_cons.mpr ⟨by simp, h.nested⟩
  first := by rw [under_cons_other (by decide)]; exact h.first
  second := by rw [under_cons_same]; exact .call hnext h.second
  third := by rw [under_cons_other (by decide)]; exact h.third

/-- A call of the third part extends a merge. -/
private theorem Parts.call_third {k : Signal (Res op) → Mono Op Res γ}
    (hnext : c.next path = some ⟨op, k⟩) (h : Parts a b (k r) tr a' b' c') :
    Parts a b c (⟨.third :: path, op, r⟩ :: tr) a' b' c' where
  nested := List.forall_mem_cons.mpr ⟨by simp, h.nested⟩
  first := by rw [under_cons_other (by decide)]; exact h.first
  second := by rw [under_cons_other (by decide)]; exact h.second
  third := by rw [under_cons_same]; exact .call hnext h.third

/-- Where a `zip` can be after a trace: still merging, or past its joint signal. -/
private def ZipTrace (a : Mono Op Res α) (b : Mono Op Res β) (c : Mono Op Res γ)
    (k : Signal (α × β × γ) → Mono Op Res δ) (tr : List (Event Op Res))
    (m' : Mono Op Res δ) : Prop :=
  (∃ a' b' c', Parts a b c tr a' b' c' ∧ m' = .zip a' b' c' k) ∨
    ∃ tr₁ tr₂ a' b' c' s, tr = tr₁ ++ tr₂ ∧ Parts a b c tr₁ a' b' c' ∧
      Mono.combine a'.outcome b'.outcome c'.outcome = some s ∧ Trace (k s) tr₂ m'

/-- Earlier calls of the parts stay in the merged phase. -/
private theorem ZipTrace.prepend {k : Signal (α × β × γ) → Mono Op Res δ} {m' : Mono Op Res δ}
    (h : ZipTrace a₁ b₁ c₁ k tr m') (es : List (Event Op Res))
    (hparts : ∀ {tr a' b' c'}, Parts a₁ b₁ c₁ tr a' b' c' → Parts a b c (es ++ tr) a' b' c') :
    ZipTrace a b c k (es ++ tr) m' := by
  rcases h with ⟨a', b', c', hp, rfl⟩ | ⟨tr₁, tr₂, a', b', c', s, rfl, hp, hs, htr⟩
  · exact .inl ⟨a', b', c', hparts hp, rfl⟩
  · exact .inr ⟨es ++ tr₁, tr₂, a', b', c', s, (List.append_assoc ..).symm, hparts hp, hs, htr⟩

/-- The calls of a merge are calls of its parts. -/
theorem Parts.emits {P : Op → Prop} (h : Parts a b c tr a' b' c') (ha : a.Emits P)
    (hb : b.Emits P) (hc : c.Emits P) : ∀ e ∈ tr, P e.op := by
  rintro ⟨path, op, r⟩ he
  cases path with
  | nil => exact absurd rfl (h.nested _ he)
  | cons branch path =>
    cases branch with
    | first => exact (h.first.emits ha).1 ⟨path, op, r⟩ (mem_under.mpr he)
    | second => exact (h.second.emits hb).1 ⟨path, op, r⟩ (mem_under.mpr he)
    | third => exact (h.third.emits hc).1 ⟨path, op, r⟩ (mem_under.mpr he)

end Parts

/-- The calls of a `zip` are a merge of its parts until the joint signal is delivered, and the
rest of the trace belongs to the continuation on that signal. -/
theorem Trace.of_zip {a : Mono Op Res α} {b : Mono Op Res β} {c : Mono Op Res γ}
    {k : Signal (α × β × γ) → Mono Op Res δ} {m' : Mono Op Res δ} {tr : List (Event Op Res)}
    (h : Trace (.zip a b c k) tr m') :
    (∃ a' b' c', Parts a b c tr a' b' c' ∧ m' = .zip a' b' c' k) ∨
      ∃ tr₁ tr₂ a' b' c' s, tr = tr₁ ++ tr₂ ∧ Parts a b c tr₁ a' b' c' ∧
        Mono.combine a'.outcome b'.outcome c'.outcome = some s ∧ Trace (k s) tr₂ m' := by
  change ZipTrace a b c k tr m'
  generalize hn : Mono.zip a b c k = n at h
  induction h generalizing a b c with
  | nil n => exact .inl ⟨a, b, c, ⟨by simp, .nil a, .nil b, .nil c⟩, hn.symm⟩
  | @call n m' path op k₀ r tr hnext hrest ih =>
    subst hn
    cases path with
    | nil => simp [Mono.next] at hnext
    | cons branch path =>
      cases branch with
      | first =>
        obtain ⟨⟨op₁, k₁⟩, hn₁, heq⟩ := Option.map_eq_some_iff.mp hnext
        cases heq
        exact (ih rfl).prepend [_] fun hp => hp.call_first hn₁
      | second =>
        obtain ⟨⟨op₁, k₁⟩, hn₁, heq⟩ := Option.map_eq_some_iff.mp hnext
        cases heq
        exact (ih rfl).prepend [_] fun hp => hp.call_second hn₁
      | third =>
        obtain ⟨⟨op₁, k₁⟩, hn₁, heq⟩ := Option.map_eq_some_iff.mp hnext
        cases heq
        exact (ih rfl).prepend [_] fun hp => hp.call_third hn₁
  | @join n n₁ m' path tr hjoin hrest ih =>
    subst hn
    cases path with
    | nil =>
      obtain ⟨s, hs, rfl⟩ := Option.map_eq_some_iff.mp hjoin
      exact .inr ⟨[], tr, a, b, c, s, rfl, ⟨by simp, .nil a, .nil b, .nil c⟩, hs, hrest⟩
    | cons branch path =>
      cases branch with
      | first =>
        obtain ⟨a₁, ha, rfl⟩ := Option.map_eq_some_iff.mp hjoin
        exact (ih rfl).prepend [] fun hp => { hp with first := .join ha hp.first }
      | second =>
        obtain ⟨b₁, hb, rfl⟩ := Option.map_eq_some_iff.mp hjoin
        exact (ih rfl).prepend [] fun hp => { hp with second := .join hb hp.second }
      | third =>
        obtain ⟨c₁, hc, rfl⟩ := Option.map_eq_some_iff.mp hjoin
        exact (ih rfl).prepend [] fun hp => { hp with third := .join hc hp.third }

end ApiFirewall.Reactive
