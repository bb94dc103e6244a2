import Mathlib.Data.List.Basic
import Mathlib.Data.List.Forall2

/-!
# Splits of lists

Histories here are lists that grow at the end, and what happened at one element is told by the split
of the list there. Two facts about such splits: a property of all splits of a longer list is one of
the shorter list and of the last element, and an element that only the last place can hold is there.
A third fact is about histories that belong together element by element.
-/

namespace List

variable {α : Type}

/-- A property of every split of a longer list holds of every split of the shorter one and of
the last element. -/
theorem forall_split_concat {Q : List α → α → Prop} {l : List α} {a : α} :
    (∀ pre b post, l ++ [a] = pre ++ b :: post → Q pre b) ↔
      (∀ pre b post, l = pre ++ b :: post → Q pre b) ∧ Q l a := by
  constructor
  · intro h
    exact ⟨fun pre b post hl => h pre b (post ++ [a]) (by simp [hl]), h l a [] rfl⟩
  · rintro ⟨h, ha⟩ pre b post hl
    rcases eq_nil_or_concat post with rfl | ⟨post', c, rfl⟩
    · obtain ⟨rfl, hb⟩ := append_inj' hl rfl
      exact singleton_inj.mp hb ▸ ha
    · rw [concat_eq_append, ← cons_append, ← append_assoc] at hl
      exact h pre b post' (append_inj' hl rfl).1

/-- Where only the last element has a property, every element with it is the last one. -/
theorem eq_last {p : α → Prop} {front before after : List α} {z e : α}
    (hsplit : front ++ [z] = before ++ e :: after) (hfront : ∀ a ∈ front, ¬ p a) (he : p e) :
    before = front ∧ after = [] := by
  rcases eq_nil_or_concat after with rfl | ⟨after', y, rfl⟩
  · exact ⟨(append_inj' hsplit rfl).1.symm, rfl⟩
  · rw [concat_eq_append, ← cons_append, ← append_assoc] at hsplit
    have hmem : e ∈ front := by
      rw [(append_inj' hsplit rfl).1]
      simp
    exact absurd he (hfront e hmem)

/-- Lists that are related to a third one, element by element, are related through it. -/
theorem Forall₂.comp {β γ : Type} {R : α → β → Prop} {S : β → γ → Prop} {as : List α} {bs : List β}
    {cs : List γ} (h : Forall₂ R as bs) (h' : Forall₂ S bs cs) :
    Forall₂ (fun a c => ∃ b, R a b ∧ S b c) as cs := by
  induction h generalizing cs with
  | nil =>
    cases h'
    exact .nil
  | cons hab _ ih =>
    cases h' with
    | cons hbc hrest => exact .cons ⟨_, hab, hbc⟩ (ih hrest)

end List
