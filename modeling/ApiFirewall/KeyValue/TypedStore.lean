import ApiFirewall.KeyValue.Store

/-!
# Stores whose keys keep their types

Keys are divided into those of counters and those of texts. If commands keep to this division, so
does the store, and a counter is never larger than the number of increments. A store that does so
refuses no command but a write without a time to live, as long as no counter can have reached the
largest one.
-/

namespace ApiFirewall.KeyValue

variable {κ : Type}

/-- The command keeps to the division: it increments counters and writes texts. -/
def Command.Respects (counter : κ → Prop) : Command κ → Prop
  | .increment k => counter k
  | .set k _ _ => ¬ counter k
  | _ => True

namespace Store

variable {counter : κ → Prop} {bound bound' : ℤ} {s : Store κ} {now : ℕ}

/-- Counters are kept at the keys of counters, up to a bound, and texts at the others. -/
def Typed (counter : κ → Prop) (bound : ℤ) (s : Store κ) : Prop :=
  ∀ k c, s k = some c → match c.value with
    | .int n => counter k ∧ n ≤ bound
    | .text _ => ¬ counter k

/-- The empty store keeps its types. -/
theorem Typed.empty (counter : κ → Prop) (bound : ℤ) : (empty : Store κ).Typed counter bound := by
  intro k c h
  cases h

/-- The bound may be larger. -/
theorem Typed.mono (h : s.Typed counter bound) (hle : bound ≤ bound') : s.Typed counter bound' := by
  intro k c hc
  have htyped := h k c hc
  revert htyped
  cases c.value with
  | int n => exact fun htyped => ⟨htyped.1, Int.le_trans htyped.2 hle⟩
  | text t => exact id

/-- A key holds a text exactly if it is not the key of a counter. -/
theorem Typed.text_iff (h : s.Typed counter bound) {k : κ} {c : Cell} (hc : s k = some c) :
    (∃ t, c.value = .text t) ↔ ¬ counter k := by
  have htyped := h k c hc
  revert htyped
  cases c.value with
  | int n => simp +contextual
  | text t => simp

variable [DecidableEq κ]

/-- An update with a cell of the right type keeps the types. -/
theorem Typed.update (h : s.Typed counter bound) {k : κ} {v : Option Cell}
    (hv : ∀ c, v = some c → match c.value with
      | .int n => counter k ∧ n ≤ bound
      | .text _ => ¬ counter k) : Store.Typed counter bound (Function.update s k v) := by
  intro k' c hc
  by_cases heq : k' = k
  · subst heq
    rw [Function.update_self] at hc
    exact hv c hc
  · rw [Function.update_of_ne heq] at hc
    exact h k' c hc

/-- A command that respects the types keeps them; an increment can raise a counter by one. -/
theorem Typed.exec (h : s.Typed counter bound) (hbound : 0 ≤ bound) {c : Command κ}
    (hc : c.Respects counter) (now : ℕ) : (s.exec now c).2.Typed counter (bound + 1) := by
  have hmore := h.mono (Int.le_add_one (Int.le_refl bound))
  cases c with
  | hasKey k => exact hmore
  | set k v ttl =>
    simp only [Store.exec]
    split
    · exact hmore
    · apply hmore.update
      rintro c ⟨⟩
      exact hc
  | increment k =>
    simp only [Store.exec]
    split
    · apply hmore.update
      rintro c ⟨⟩
      exact ⟨hc, by omega⟩
    · rename_i n e hget
      split
      · apply hmore.update
        rintro c ⟨⟩
        obtain ⟨hcounter, hn⟩ := h k _ (eq_some_of_get hget)
        exact ⟨hcounter, by omega⟩
      · exact hmore
    · exact hmore
  | expire k ttl =>
    simp only [Store.exec]
    split
    · exact hmore
    · rename_i c hget
      apply hmore.update
      intro c' hc'
      split at hc'
      · cases hc'
      · obtain rfl := Option.some.inj hc'
        exact hmore k c (eq_some_of_get hget)
  | delete k =>
    apply hmore.update
    rintro c ⟨⟩

/-- A store that keeps its types refuses no command that respects them, but a write without a time
to live. -/
theorem Typed.answers (h : s.Typed counter bound) (hbound : bound < maxCounter) {c : Command κ}
    (hc : c.Respects counter) (httl : ∀ k v ttl, c = .set k v ttl → 0 < ttl) (now : ℕ) :
    ∃ r, (s.exec now c).1 = some r := by
  cases c with
  | hasKey k => exact ⟨_, rfl⟩
  | set k v ttl =>
    have hpos := httl k v ttl rfl
    exact ⟨true, by simp only [Store.exec, if_neg (Nat.ne_of_gt hpos)]⟩
  | increment k =>
    cases hget : s.get now k with
    | none => exact ⟨1, by simp only [Store.exec, hget]⟩
    | some c =>
      obtain ⟨v, e⟩ := c
      have htyped := h k _ (eq_some_of_get hget)
      cases v with
      | int n =>
        have hn : n < maxCounter := Int.lt_of_le_of_lt htyped.2 hbound
        exact ⟨n + 1, by simp only [Store.exec, hget, if_pos hn]⟩
      | text t => exact absurd hc htyped
  | expire k ttl =>
    cases hget : s.get now k with
    | none => exact ⟨false, by simp only [Store.exec, hget]⟩
    | some c => exact ⟨true, by simp only [Store.exec, hget]⟩
  | delete k => exact ⟨_, rfl⟩

end Store

end ApiFirewall.KeyValue
