import Mathlib.Logic.Basic

/-!
# Retrying without rollback

Work returns or raises, and moves its state on either way. Work in sequence that raises in its second
part keeps what the first part has done. A loop that retries such work until it returns begins every
attempt in the state that the last one has left.
-/

namespace ApiFirewall.Reactive

variable {ι κ σ τ : Type}

/-- Work that returns or raises, and its next state, given what its surroundings do. -/
abbrev Attempt (ι σ : Type) := ι → σ → Bool × σ

namespace Attempt

/-- Work whose surroundings are a part of others. -/
def within (part : κ → ι) (work : Attempt ι σ) : Attempt κ σ := fun i s => work (part i) s

/-- Work on the first component of a state. -/
def onFst (work : Attempt ι σ) : Attempt ι (σ × τ) := fun i s =>
  ((work i s.1).1, (work i s.1).2, s.2)

/-- Work on the second component of a state. -/
def onSnd (work : Attempt ι τ) : Attempt ι (σ × τ) := fun i s =>
  ((work i s.2).1, s.1, (work i s.2).2)

/-- One piece of work after another; if the first one raises, the second one does not begin. -/
def andThen (first second : Attempt ι σ) : Attempt ι σ := fun i s =>
  if (first i s).1 then second i (first i s).2 else first i s

variable {first second : Attempt ι σ} {i : ι} {s : σ}

/-- A sequence goes on after a first part that returns. -/
theorem andThen_of_returned (h : (first i s).1 = true) :
    first.andThen second i s = second i (first i s).2 := if_pos h

/-- A sequence ends with a first part that raises. -/
theorem andThen_of_raised (h : (first i s).1 = false) : first.andThen second i s = first i s :=
  if_neg (ne_true_of_eq_false h)

end Attempt

/-- Attempt the work in one surrounding after the other until it returns: whether it has, and the
state that the last attempt leaves. -/
def retry (work : Attempt ι σ) : List ι → σ → Bool × σ
  | [], s => (false, s)
  | i :: rest, s => if (work i s).1 then work i s else retry work rest (work i s).2

variable {work : Attempt ι σ} {i : ι} {rest history : List ι} {s : σ}

@[simp] theorem retry_nil : retry work [] s = (false, s) := rfl

/-- The loop ends with the first attempt that returns. -/
theorem retry_cons_of_returned (h : (work i s).1 = true) :
    retry work (i :: rest) s = work i s := if_pos h

/-- After an attempt that raises, the loop goes on in the state that the attempt has left. -/
theorem retry_cons_of_raised (h : (work i s).1 = false) :
    retry work (i :: rest) s = retry work rest (work i s).2 := if_neg (ne_true_of_eq_false h)

/-- A loop that has not ended goes on with the further attempts. -/
theorem retry_append_of_raised (h : (retry work history s).1 = false) :
    retry work (history ++ rest) s = retry work rest (retry work history s).2 := by
  induction history generalizing s with
  | nil => rfl
  | cons i history ih =>
    cases hwork : (work i s).1 with
    | true =>
      rw [retry_cons_of_returned hwork, hwork] at h
      cases h
    | false =>
      rw [retry_cons_of_raised hwork] at h
      rw [List.cons_append, retry_cons_of_raised hwork, retry_cons_of_raised hwork, ih h]

/-- If every attempt raises from the states of an invariant and keeps it, the loop does not end. -/
theorem retry_raises {P : σ → Prop}
    (hstep : ∀ i ∈ history, ∀ s, P s → (work i s).1 = false ∧ P (work i s).2) (hs : P s) :
    (retry work history s).1 = false ∧ P (retry work history s).2 := by
  induction history generalizing s with
  | nil => exact ⟨rfl, hs⟩
  | cons i history ih =>
    obtain ⟨hraised, hnext⟩ := hstep i (List.mem_cons_self ..) s hs
    rw [retry_cons_of_raised hraised]
    exact ih (fun j hj => hstep j (List.mem_cons_of_mem _ hj)) hnext

/-- If moreover an attempt returns from every state of the invariant, the loop ends with it. -/
theorem retry_recovers {P : σ → Prop}
    (hstep : ∀ i ∈ history, ∀ s, P s → (work i s).1 = false ∧ P (work i s).2) (hs : P s)
    (hreturns : ∀ s, P s → (work i s).1 = true) :
    ∃ s', P s' ∧ retry work (history ++ [i]) s = work i s' := by
  obtain ⟨hraised, hlast⟩ := retry_raises hstep hs
  refine ⟨_, hlast, ?_⟩
  rw [retry_append_of_raised hraised, retry_cons_of_returned (hreturns _ hlast)]

end ApiFirewall.Reactive
