import ApiFirewall.Reactive.Trace
import Mathlib.Data.List.Forall2

/-!
# Calls that are attempted in order

Work that performs a fixed sequence of calls and gives up at the first one that fails. Its trace
is a beginning of the sequence in which every call but the last has succeeded; it is the whole
sequence exactly if no call failed.
-/

namespace ApiFirewall.Reactive

variable {Op : Type} {Res : Op → Type} {α β : Type}

/-- The calls of a sequence, in order, up to the first one that fails. -/
inductive Attempted : List Op → List (Event Op Res) → Prop where
  | nil : Attempted [] []
  | failed (op : Op) (ops : List Op) : Attempted (op :: ops) [.top op .error]
  | next {op : Op} {ops : List Op} {r : Signal (Res op)} {tr : List (Event Op Res)}
      (hr : r ≠ .error) (hrest : Attempted ops tr) : Attempted (op :: ops) (.top op r :: tr)

/-- No call has failed. -/
def AllSucceed (tr : List (Event Op Res)) : Prop := ∀ e ∈ tr, e.reply ≠ .error

@[simp] theorem allSucceed_nil : AllSucceed ([] : List (Event Op Res)) := by simp [AllSucceed]

@[simp] theorem allSucceed_cons (e : Event Op Res) (tr : List (Event Op Res)) :
    AllSucceed (e :: tr) ↔ e.reply ≠ .error ∧ AllSucceed tr := by simp [AllSucceed]

@[simp] theorem allSucceed_append (tr₁ tr₂ : List (Event Op Res)) :
    AllSucceed (tr₁ ++ tr₂) ↔ AllSucceed tr₁ ∧ AllSucceed tr₂ := by
  simp [AllSucceed, or_imp, forall_and]

/-- Whether a call has failed can be read off its reply. -/
theorem allSucceed_iff_all {tr : List (Event Op Res)} :
    AllSucceed tr ↔ tr.all (fun e => !e.reply.isError) = true := by
  rw [List.all_eq_true]
  refine forall₂_congr fun e _ => ?_
  cases e.reply <;> simp [Signal.isError]

/-- A call that has failed is among the calls. -/
theorem not_allSucceed_cons_error (op : Op) (tr : List (Event Op Res)) :
    ¬ AllSucceed (.top op .error :: tr) := fun h => (allSucceed_cons _ _ |>.mp h).1 rfl

namespace Attempted

variable {ops : List Op} {tr : List (Event Op Res)}

/-- If no call fails, all calls are performed. -/
theorem map_op (h : Attempted ops tr) (hall : AllSucceed tr) : tr.map Event.op = ops := by
  induction h with
  | nil => rfl
  | failed op ops => exact absurd rfl (hall _ (List.mem_singleton_self _))
  | @next op ops r tr hr hrest ih =>
    rw [List.map_cons, ih (allSucceed_cons _ _ |>.mp hall).2]
    rfl

end Attempted

/-- The first sequence is attempted to its end before the second one begins. -/
theorem Attempted.append {ops₁ ops₂ : List Op} {tr₁ tr₂ : List (Event Op Res)}
    (h₁ : Attempted ops₁ tr₁) (hall : AllSucceed tr₁) (h₂ : Attempted ops₂ tr₂) :
    Attempted (ops₁ ++ ops₂) (tr₁ ++ tr₂) := by
  induction h₁ with
  | nil => exact h₂
  | failed op ops => exact absurd rfl (hall _ (List.mem_singleton_self _))
  | next hr _ ih => exact .next hr (ih ((allSucceed_cons _ _).mp hall).2)

/-- A sequence that has failed is not continued. -/
theorem Attempted.append_failed {ops₁ : List Op} (ops₂ : List Op) {tr : List (Event Op Res)}
    (h : Attempted ops₁ tr) (hfailed : ¬ AllSucceed tr) : Attempted (ops₁ ++ ops₂) tr := by
  induction h with
  | nil => exact absurd allSucceed_nil hfailed
  | failed op ops => exact .failed op (ops ++ ops₂)
  | @next op ops r tr hr _ ih =>
    exact .next hr (ih fun hall => hfailed ((allSucceed_cons _ _).mpr ⟨hr, hall⟩))

/-- A program that ends has attempted the sequence, and it ends with an error exactly if a call
has failed. -/
def Attempts (m : Mono Op Res α) (ops : List Op) : Prop :=
  ∀ (tr : List (Event Op Res)) (s : Signal α), Trace m tr (.done s) →
    Attempted ops tr ∧ (s = .error ↔ ¬ AllSucceed tr)

/-- A value attempts nothing. -/
theorem attempts_just (a : α) : Attempts (.just a : Mono Op Res α) [] := by
  intro tr s h
  obtain ⟨rfl, hs⟩ := h.of_done
  exact ⟨.nil, by simp [Mono.done.inj hs]⟩

/-- One call is attempted. -/
theorem attempts_await (op : Op) : Attempts (.await op : Mono Op Res (Res op)) [op] := by
  intro tr s h
  obtain rfl := h.ended_await
  cases s with
  | error => exact ⟨.failed op [], by simp [Event.top]⟩
  | value a => exact ⟨.next (by simp) .nil, by simp [Event.top]⟩
  | empty => exact ⟨.next (by simp) .nil, by simp [Event.top]⟩

/-- Two programs one after the other attempt both sequences. -/
theorem Attempts.andThen {m : Mono Op Res α} {next : Mono Op Res β} {ops₁ ops₂ : List Op}
    (h₁ : Attempts m ops₁) (h₂ : Attempts next ops₂) :
    Attempts (m.andThen next) (ops₁ ++ ops₂) := by
  intro tr s h
  obtain ⟨tr₁, tr₂, s₁, rfl, htr₁, htr₂⟩ := h.ended_onSignal
  obtain ⟨hops, hend⟩ := h₁ tr₁ s₁ htr₁
  by_cases hs₁ : s₁ = .error
  · subst hs₁
    obtain ⟨rfl, hs⟩ := htr₂.of_done
    have hfailed := hend.mp rfl
    rw [List.append_nil]
    exact ⟨hops.append_failed ops₂ hfailed, by simp [Mono.done.inj hs, hfailed]⟩
  · have hall : AllSucceed tr₁ := by
      by_contra hfailed
      exact hs₁ (hend.mpr hfailed)
    have hrest : Trace next tr₂ (.done s) := by
      cases s₁ with
      | error => exact absurd rfl hs₁
      | value a => exact htr₂
      | empty => exact htr₂
    obtain ⟨hops₂, hend₂⟩ := h₂ tr₂ s hrest
    exact ⟨hops.append hall hops₂, by simp [hend₂, hall]⟩

/-- Replacing the value of a program attempts the same calls. -/
theorem Attempts.thenReturn {m : Mono Op Res α} {ops : List Op} (h : Attempts m ops) (b : β) :
    Attempts (m.thenReturn b) ops := by
  have hboth := h.andThen (attempts_just b)
  rw [List.append_nil] at hboth
  exact hboth

/-- A program that absorbs its failure attempts its calls and never fails. -/
theorem Trace.attempted_of_resume {m : Mono Op Res α} {ops : List Op} (hm : Attempts m ops)
    {a : α} {tr : List (Event Op Res)} {s : Signal α}
    (h : Trace (m.onErrorResume (.just a)) tr (.done s)) : s ≠ .error ∧ Attempted ops tr := by
  obtain ⟨tr₁, tr₂, s₁, rfl, htr₁, htr₂⟩ := h.ended_onSignal
  have hnil : tr₂ = [] ∧ s ≠ .error := by
    cases s₁ <;> obtain ⟨rfl, hs⟩ := htr₂.of_done <;> exact ⟨rfl, by simp [Mono.done.inj hs]⟩
  obtain ⟨rfl, hs⟩ := hnil
  rw [List.append_nil]
  exact ⟨hs, (hm tr₁ s₁ htr₁).1⟩

end ApiFirewall.Reactive
