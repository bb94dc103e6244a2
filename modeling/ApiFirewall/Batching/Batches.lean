import Mathlib.Data.List.Basic
import Mathlib.Data.Nat.Notation

/-!
# Items sent in bounded batches

Items arrive one by one and are sent in batches. A batch is sent when it is full, or earlier on
demand; it is never empty and never larger than the bound. Sending keeps every item, once and in
the order of arrival, so the batches sent so far and the items not yet sent make up what arrived.
-/

namespace ApiFirewall.Batching

/-- The batches that have been sent, and the items that wait for the next one. -/
structure Batches (α : Type) (size : ℕ) where
  sent : List (List α)
  unsent : List α
  sent_bounds : ∀ batch ∈ sent, 1 ≤ batch.length ∧ batch.length ≤ size
  unsent_lt : unsent.length < size

namespace Batches

variable {α : Type} {size : ℕ}

/-- Nothing has arrived. -/
def empty (h : 0 < size) : Batches α size := ⟨[], [], by simp, h⟩

/-- One more batch keeps the bounds. -/
private theorem bounds_concat {sent : List (List α)} {batch : List α}
    (h : ∀ other ∈ sent, 1 ≤ other.length ∧ other.length ≤ size)
    (hbatch : 1 ≤ batch.length ∧ batch.length ≤ size) :
    ∀ other ∈ sent ++ [batch], 1 ≤ other.length ∧ other.length ≤ size :=
  List.forall_mem_append.mpr ⟨h, List.forall_mem_singleton.mpr hbatch⟩

/-- Send what waits, if anything does. -/
def flush (b : Batches α size) : Batches α size :=
  if h : b.unsent = [] then b
  else
    { sent := b.sent ++ [b.unsent]
      unsent := []
      sent_bounds := bounds_concat b.sent_bounds
        ⟨List.length_pos_iff.mpr h, Nat.le_of_lt b.unsent_lt⟩
      unsent_lt := Nat.lt_of_le_of_lt (Nat.zero_le _) b.unsent_lt }

/-- An item arrives, and the batch is sent if that fills it. -/
def push (b : Batches α size) (a : α) : Batches α size :=
  if h : (b.unsent ++ [a]).length < size then { b with unsent := b.unsent ++ [a], unsent_lt := h }
  else
    { sent := b.sent ++ [b.unsent ++ [a]]
      unsent := []
      sent_bounds := bounds_concat b.sent_bounds ⟨by simp, by simpa using Nat.succ_le_of_lt b.unsent_lt⟩
      unsent_lt := Nat.lt_of_le_of_lt (Nat.zero_le _) b.unsent_lt }

/-- Everything that has arrived. -/
def contents (b : Batches α size) : List α := b.sent.flatten ++ b.unsent

@[simp] theorem contents_empty (h : 0 < size) : (empty h : Batches α size).contents = [] := rfl

@[simp] theorem contents_flush (b : Batches α size) : b.flush.contents = b.contents := by
  unfold flush contents
  split <;> simp

@[simp] theorem contents_push (b : Batches α size) (a : α) :
    (b.push a).contents = b.contents ++ [a] := by
  unfold push contents
  split <;> simp

/-- An item that does not fill the batch waits. -/
theorem push_of_lt {b : Batches α size} {a : α} (h : (b.unsent ++ [a]).length < size) :
    (b.push a).sent = b.sent ∧ (b.push a).unsent = b.unsent ++ [a] := by
  rw [push, dif_pos h]
  exact ⟨rfl, rfl⟩

/-- An item that fills the batch sends it. -/
theorem push_of_le {b : Batches α size} {a : α} (h : size ≤ (b.unsent ++ [a]).length) :
    (b.push a).sent = b.sent ++ [b.unsent ++ [a]] ∧ (b.push a).unsent = [] := by
  rw [push, dif_neg (Nat.not_lt.mpr h)]
  exact ⟨rfl, rfl⟩

/-- Sending nothing changes nothing. -/
theorem flush_of_nil {b : Batches α size} (h : b.unsent = []) : b.flush = b := by
  rw [flush, dif_pos h]

/-- Sending what waits leaves nothing. -/
theorem flush_of_ne_nil {b : Batches α size} (h : b.unsent ≠ []) :
    b.flush.sent = b.sent ++ [b.unsent] ∧ b.flush.unsent = [] := by
  rw [flush, dif_neg h]
  exact ⟨rfl, rfl⟩

end Batches

end ApiFirewall.Batching
