import Mathlib.Data.List.Basic

/-!
# Reactive sources as effect trees

A source either ends with a signal, performs one call and continues with the reply, or
subscribes to three sources at once and continues with their joint result. Replies carry
failures explicitly, so the operators that react to an error or to an empty completion are
ordinary functions on trees and every one of them is an instance of `onSignal`.

The `zip` node keeps its three parts separate: a scheduler chooses which part performs its
next call, so the order of calls is not fixed here.
-/

namespace ApiFirewall.Reactive

/-- How a source ends: with one value, with a bare completion, or with an error. -/
inductive Signal (α : Type) where
  | value (a : α)
  | empty
  | error
  deriving DecidableEq, Repr

/-- The source failed. -/
def Signal.isError {α : Type} : Signal α → Bool
  | .error => true
  | _ => false

/-- The source completed without a value. -/
def Signal.isEmpty {α : Type} : Signal α → Bool
  | .empty => true
  | _ => false

/-- One of the three parts of a `zip`. -/
inductive Branch where
  | first
  | second
  | third
  deriving DecidableEq, Repr

/-- A cold source with calls `Op`, whose replies have type `Res`. -/
inductive Mono (Op : Type) (Res : Op → Type) : Type → Type 1 where
  | done {α : Type} (s : Signal α) : Mono Op Res α
  | call {α : Type} (op : Op) (k : Signal (Res op) → Mono Op Res α) : Mono Op Res α
  | zip {α β γ δ : Type} (a : Mono Op Res α) (b : Mono Op Res β) (c : Mono Op Res γ)
      (k : Signal (α × β × γ) → Mono Op Res δ) : Mono Op Res δ

namespace Mono

variable {Op : Type} {Res : Op → Type} {α β γ δ : Type}

/-- A source that ends at once with a value. -/
def just (a : α) : Mono Op Res α := done (.value a)

/-- Perform one call and end with its reply. -/
def await (op : Op) : Mono Op Res (Res op) := call op done

/-- Continue with `f` once the source has ended, however it ended. -/
def onSignal : Mono Op Res α → (Signal α → Mono Op Res β) → Mono Op Res β
  | done s, f => f s
  | call op k, f => call op fun r => (k r).onSignal f
  | zip a b c k, f => zip a b c fun s => (k s).onSignal f

/-- Continue with the value; an error or an empty completion passes through. -/
def flatMap (m : Mono Op Res α) (f : α → Mono Op Res β) : Mono Op Res β :=
  m.onSignal fun
    | .value a => f a
    | .empty => done .empty
    | .error => done .error

/-- Continue after completion, discarding a value; an error passes through. -/
def andThen (m : Mono Op Res α) (next : Mono Op Res β) : Mono Op Res β :=
  m.onSignal fun
    | .error => done .error
    | _ => next

/-- Wait for completion and end with the given value. -/
def thenReturn (m : Mono Op Res α) (b : β) : Mono Op Res β := m.andThen (just b)

/-- Replace an empty completion by a value. -/
def defaultIfEmpty (m : Mono Op Res α) (a : α) : Mono Op Res α :=
  m.onSignal fun
    | .empty => just a
    | s => done s

/-- Replace an error by another source. -/
def onErrorResume (m : Mono Op Res α) (fallback : Mono Op Res α) : Mono Op Res α :=
  m.onSignal fun
    | .error => fallback
    | s => done s

@[simp] theorem onSignal_done (s : Signal α) (f : Signal α → Mono Op Res β) :
    (done s : Mono Op Res α).onSignal f = f s := rfl

@[simp] theorem onSignal_call (op : Op) (k : Signal (Res op) → Mono Op Res α)
    (f : Signal α → Mono Op Res β) :
    (call op k).onSignal f = call op fun r => (k r).onSignal f := rfl

@[simp] theorem onSignal_zip (a : Mono Op Res α) (b : Mono Op Res β) (c : Mono Op Res γ)
    (k : Signal (α × β × γ) → Mono Op Res δ) {ε : Type} (f : Signal δ → Mono Op Res ε) :
    (zip a b c k).onSignal f = zip a b c fun s => (k s).onSignal f := rfl

/-- The call offered at a position, with the program that receives its reply. -/
def next : {α : Type} → Mono Op Res α → List Branch →
    Option ((op : Op) × (Signal (Res op) → Mono Op Res α))
  | _, call op k, [] => some ⟨op, k⟩
  | _, zip a b c k, .first :: path => (a.next path).map fun n => ⟨n.1, fun r => zip (n.2 r) b c k⟩
  | _, zip a b c k, .second :: path => (b.next path).map fun n => ⟨n.1, fun r => zip a (n.2 r) c k⟩
  | _, zip a b c k, .third :: path => (c.next path).map fun n => ⟨n.1, fun r => zip a b (n.2 r) k⟩
  | _, _, _ => none

/-- The signal of a source that has ended. -/
def outcome : Mono Op Res α → Option (Signal α)
  | done s => some s
  | _ => none

/-- The joint signal of three sources. One error or one empty completion decides it at once,
without waiting for the other parts; a value needs all three. -/
def combine (a : Option (Signal α)) (b : Option (Signal β)) (c : Option (Signal γ)) :
    Option (Signal (α × β × γ)) :=
  if a.any Signal.isError || b.any Signal.isError || c.any Signal.isError then some .error
  else if a.any Signal.isEmpty || b.any Signal.isEmpty || c.any Signal.isEmpty then some .empty
  else match a, b, c with
    | some (.value x), some (.value y), some (.value z) => some (.value (x, y, z))
    | _, _, _ => none

/-- Let the `zip` at a position deliver its joint signal. -/
def join : {α : Type} → Mono Op Res α → List Branch → Option (Mono Op Res α)
  | _, zip a b c k, [] => (combine a.outcome b.outcome c.outcome).map k
  | _, zip a b c k, .first :: path => (a.join path).map fun a' => zip a' b c k
  | _, zip a b c k, .second :: path => (b.join path).map fun b' => zip a b' c k
  | _, zip a b c k, .third :: path => (c.join path).map fun c' => zip a b c' k
  | _, _, _ => none

/-- Only a source that has ended has a signal. -/
theorem eq_done_of_outcome {m : Mono Op Res α} {s : Signal α} (h : m.outcome = some s) :
    m = done s := by
  cases m with
  | done t =>
    simp only [outcome, Option.some.injEq] at h
    rw [h]
  | call op k => simp [outcome] at h
  | zip a b c k => simp [outcome] at h

/-- A joint value consists of the values of all three parts. -/
theorem eq_value_of_combine {a : Option (Signal α)} {b : Option (Signal β)}
    {c : Option (Signal γ)} {x : α} {y : β} {z : γ}
    (h : combine a b c = some (.value (x, y, z))) :
    a = some (.value x) ∧ b = some (.value y) ∧ c = some (.value z) := by
  unfold combine at h
  split at h
  · simp at h
  · split at h
    · simp at h
    · split at h
      · simp only [Option.some.injEq, Signal.value.injEq, Prod.mk.injEq] at h
        obtain ⟨rfl, rfl, rfl⟩ := h
        exact ⟨rfl, rfl, rfl⟩
      · simp at h

/-- Every call that the program can still perform satisfies `P`, whatever the replies are. -/
def Emits (P : Op → Prop) : {α : Type} → Mono Op Res α → Prop
  | _, done _ => True
  | _, call op k => P op ∧ ∀ r, (k r).Emits P
  | _, zip a b c k => a.Emits P ∧ b.Emits P ∧ c.Emits P ∧ ∀ s, (k s).Emits P

@[simp] theorem emits_done (P : Op → Prop) (s : Signal α) :
    (done s : Mono Op Res α).Emits P := trivial

@[simp] theorem emits_just (P : Op → Prop) (a : α) : (just a : Mono Op Res α).Emits P := trivial

@[simp] theorem emits_call (P : Op → Prop) (op : Op) (k : Signal (Res op) → Mono Op Res α) :
    (call op k).Emits P ↔ P op ∧ ∀ r, (k r).Emits P := Iff.rfl

@[simp] theorem emits_zip (P : Op → Prop) (a : Mono Op Res α) (b : Mono Op Res β)
    (c : Mono Op Res γ) (k : Signal (α × β × γ) → Mono Op Res δ) :
    (zip a b c k).Emits P ↔ a.Emits P ∧ b.Emits P ∧ c.Emits P ∧ ∀ s, (k s).Emits P := Iff.rfl

/-- A weaker condition admits the same programs. -/
theorem Emits.mono {P Q : Op → Prop} {m : Mono Op Res α} (hm : m.Emits P)
    (hPQ : ∀ op, P op → Q op) : m.Emits Q := by
  induction m with
  | done s => trivial
  | call op k ih => exact ⟨hPQ op hm.1, fun r => ih r (hm.2 r)⟩
  | zip a b c k iha ihb ihc ih =>
    obtain ⟨ha, hb, hc, hk⟩ := hm
    exact ⟨iha ha, ihb hb, ihc hc, fun s => ih s (hk s)⟩

/-- Sequencing performs the calls of the first source and then those of its continuation. -/
theorem emits_onSignal {P : Op → Prop} {m : Mono Op Res α} {f : Signal α → Mono Op Res β}
    (hm : m.Emits P) (hf : ∀ s, (f s).Emits P) : (m.onSignal f).Emits P := by
  induction m with
  | done s => exact hf s
  | call op k ih => exact ⟨hm.1, fun r => ih r (hm.2 r) hf⟩
  | zip a b c k _ _ _ ih =>
    obtain ⟨ha, hb, hc, hk⟩ := hm
    exact ⟨ha, hb, hc, fun s => ih s (hk s) hf⟩

/-- The calls of a `flatMap` are those of the source and of the continuation on its values. -/
theorem emits_flatMap {P : Op → Prop} {m : Mono Op Res α} {f : α → Mono Op Res β}
    (hm : m.Emits P) (hf : ∀ a, (f a).Emits P) : (m.flatMap f).Emits P :=
  emits_onSignal hm fun s => by cases s <;> first | exact hf _ | trivial

/-- A scheduled call is an admitted one, and so is everything after its reply. -/
theorem Emits.of_next {P : Op → Prop} : {α : Type} → {m : Mono Op Res α} → {path : List Branch} →
    {n : (op : Op) × (Signal (Res op) → Mono Op Res α)} →
    m.Emits P → m.next path = some n → P n.1 ∧ ∀ r, (n.2 r).Emits P := by
  intro α m
  induction m with
  | done s => intro path n _ h; simp [next] at h
  | call op k =>
    intro path n hm h
    cases path with
    | nil =>
      simp only [next, Option.some.injEq] at h
      subst h
      exact hm
    | cons b path => simp [next] at h
  | zip a b c k iha ihb ihc _ =>
    intro path n hm h
    obtain ⟨ha, hb, hc, hk⟩ := hm
    cases path with
    | nil => simp [next] at h
    | cons branch path =>
      cases branch with
      | first =>
        obtain ⟨n', hn, rfl⟩ := Option.map_eq_some_iff.mp h
        obtain ⟨hp, hr⟩ := iha ha hn
        exact ⟨hp, fun r => ⟨hr r, hb, hc, hk⟩⟩
      | second =>
        obtain ⟨n', hn, rfl⟩ := Option.map_eq_some_iff.mp h
        obtain ⟨hp, hr⟩ := ihb hb hn
        exact ⟨hp, fun r => ⟨ha, hr r, hc, hk⟩⟩
      | third =>
        obtain ⟨n', hn, rfl⟩ := Option.map_eq_some_iff.mp h
        obtain ⟨hp, hr⟩ := ihc hc hn
        exact ⟨hp, fun r => ⟨ha, hb, hr r, hk⟩⟩

/-- Joining the parts of a `zip` adds no calls. -/
theorem Emits.of_join {P : Op → Prop} : {α : Type} → {m m' : Mono Op Res α} →
    {path : List Branch} → m.Emits P → m.join path = some m' → m'.Emits P := by
  intro α m
  induction m with
  | done s => intro m' path _ h; simp [join] at h
  | call op k => intro m' path _ h; cases path <;> simp [join] at h
  | zip a b c k iha ihb ihc _ =>
    intro m' path hm h
    obtain ⟨ha, hb, hc, hk⟩ := hm
    cases path with
    | nil =>
      obtain ⟨s, _, rfl⟩ := Option.map_eq_some_iff.mp h
      exact hk s
    | cons branch path =>
      cases branch with
      | first =>
        obtain ⟨a', ha', rfl⟩ := Option.map_eq_some_iff.mp h
        exact ⟨iha ha ha', hb, hc, hk⟩
      | second =>
        obtain ⟨b', hb', rfl⟩ := Option.map_eq_some_iff.mp h
        exact ⟨ha, ihb hb hb', hc, hk⟩
      | third =>
        obtain ⟨c', hc', rfl⟩ := Option.map_eq_some_iff.mp h
        exact ⟨ha, hb, ihc hc hc', hk⟩

end Mono

end ApiFirewall.Reactive
