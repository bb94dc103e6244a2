import Mathlib.Algebra.Group.Int.Defs
import Mathlib.Data.Nat.Notation
import Mathlib.Logic.Function.Basic

/-!
# A key-value store with expiring keys

Keys map to cells with an optional expiry instant in milliseconds. A cell is visible strictly
before its expiry and invisible from then on; nothing else removes it, so no key is evicted.
Commands are atomic, read the clock once, and answer `none` where the server replies with an
error. Counters are integers of 64 bits.
-/

namespace ApiFirewall.KeyValue

/-- A stored value: a counter, or a text that is not a number. -/
inductive Value where
  | int (n : ℤ)
  | text (s : String)
  deriving DecidableEq, Repr

/-- A value with its expiry instant, if it has one. -/
structure Cell where
  value : Value
  expireAt : Option ℕ
  deriving DecidableEq, Repr

/-- The cell has not expired. -/
def Cell.live (now : ℕ) (c : Cell) : Bool := c.expireAt.all fun e => decide (now < e)

/-- All cells, the expired ones included. -/
abbrev Store (κ : Type) := κ → Option Cell

/-- The commands a client can send; times to live are in milliseconds. -/
inductive Command (κ : Type) where
  | hasKey (key : κ)
  | set (key : κ) (value : String) (ttl : ℕ)
  | increment (key : κ)
  | expire (key : κ) (ttl : ℕ)
  | delete (key : κ)
  deriving DecidableEq, Repr

namespace Command

variable {κ : Type}

/-- What the server answers to a command. -/
@[reducible] def Result : Command κ → Type
  | hasKey _ => Bool
  | set _ _ _ => Bool
  | increment _ => ℤ
  | expire _ _ => Bool
  | delete _ => Bool

/-- The key a command names. -/
def key : Command κ → κ
  | hasKey k => k
  | set k _ _ => k
  | increment k => k
  | expire k _ => k
  | delete k => k

end Command

namespace Store

variable {κ : Type}

/-- No key. -/
def empty : Store κ := fun _ => none

/-- The visible cell of a key. -/
def get (s : Store κ) (now : ℕ) (k : κ) : Option Cell := (s k).filter (Cell.live now)

/-- The largest counter. -/
def maxCounter : ℤ := 2 ^ 63 - 1

/-- The key is stored and does not expire before `t`. -/
def LiveUntil (s : Store κ) (k : κ) (t : ℕ) : Prop :=
  ∃ c, s k = some c ∧ ∀ e, c.expireAt = some e → t ≤ e

section Visibility

variable {s : Store κ} {now t : ℕ} {k : κ}

/-- A cell without expiry is visible. -/
theorem get_of_persistent {v : Value} (h : s k = some ⟨v, none⟩) : s.get now k = some ⟨v, none⟩ := by
  simp [get, h, Cell.live]

/-- What is visible is stored. -/
theorem eq_some_of_get {c : Cell} (h : s.get now k = some c) : s k = some c := by
  simp only [get, Option.filter_eq_some_iff] at h
  exact h.1

/-- A stored cell that is invisible has expired. -/
theorem expired_of_get_eq_none {c : Cell} (h : s.get now k = none) (hc : s k = some c) :
    ∃ e, c.expireAt = some e ∧ e ≤ now := by
  obtain ⟨v, e⟩ := c
  cases e with
  | none => simp [get_of_persistent hc] at h
  | some e =>
    refine ⟨e, rfl, Nat.le_of_not_lt fun hlt => ?_⟩
    simp [get, hc, Cell.live, hlt] at h

/-- A key that does not expire before `t` is visible until then. -/
theorem LiveUntil.get_isSome (h : s.LiveUntil k t) (hnow : now < t) :
    (s.get now k).isSome = true := by
  obtain ⟨⟨v, e⟩, hc, he⟩ := h
  cases e with
  | none => simp [get_of_persistent hc]
  | some e =>
    have hlt : now < e := Nat.lt_of_lt_of_le hnow (he e rfl)
    simp [get, hc, Cell.live, hlt]

/-- An earlier instant asks for less. -/
theorem LiveUntil.mono {t' : ℕ} (h : s.LiveUntil k t) (ht : t' ≤ t) : s.LiveUntil k t' := by
  obtain ⟨c, hc, he⟩ := h
  exact ⟨c, hc, fun e hce => Nat.le_trans ht (he e hce)⟩

end Visibility

variable [DecidableEq κ]

/-- Carry out one command at an instant. -/
def exec (now : ℕ) (s : Store κ) : (c : Command κ) → Option c.Result × Store κ
  | .hasKey k => (some (s.get now k).isSome, s)
  | .set k v ttl =>
      if ttl = 0 then (none, s)
      else (some true, Function.update s k (some ⟨.text v, some (now + ttl)⟩))
  | .increment k =>
      match s.get now k with
      | none => (some 1, Function.update s k (some ⟨.int 1, none⟩))
      | some ⟨.int n, e⟩ =>
          if n < maxCounter then (some (n + 1), Function.update s k (some ⟨.int (n + 1), e⟩))
          else (none, s)
      | some ⟨.text _, _⟩ => (none, s)
  | .expire k ttl =>
      match s.get now k with
      | none => (some false, s)
      | some c =>
          (some true, Function.update s k
            (if ttl = 0 then none else some { c with expireAt := some (now + ttl) }))
  | .delete k => (some (s.get now k).isSome, Function.update s k none)

variable {s : Store κ} {now t : ℕ} {k : κ}

/-- A command changes no key but its own. -/
theorem exec_other {c : Command κ} (h : c.key ≠ k) : (s.exec now c).2 k = s k := by
  have hk : ∀ {k'} {v : Option Cell}, k' ≠ k → Function.update s k' v k = s k :=
    fun hne => Function.update_of_ne (Ne.symm hne) _ s
  cases c with
  | hasKey k' => rfl
  | set k' v ttl =>
    simp only [exec]
    split
    · rfl
    · exact hk h
  | increment k' =>
    simp only [exec]
    split
    · exact hk h
    · split
      · exact hk h
      · rfl
    · rfl
  | expire k' ttl =>
    simp only [exec]
    split
    · rfl
    · exact hk h
  | delete k' => exact hk h

/-- A command changes what is visible of no key but its own. -/
theorem get_exec_other {c : Command κ} {t : ℕ} (h : c.key ≠ k) :
    (s.exec t c).2.get now k = s.get now k := by
  rw [get, exec_other h, get]

/-- A text that has been written is visible until it expires. -/
theorem get_exec_set (s : Store κ) (k : κ) (v : String) {t ttl : ℕ} (ht : t ≤ now)
    (hlive : now < t + ttl) :
    (s.exec t (.set k v ttl)).2.get now k = some ⟨.text v, some (t + ttl)⟩ := by
  have httl : ttl ≠ 0 := by omega
  simp [exec, httl, get, Cell.live, hlive]

/-- Writing a key with a time to live keeps it visible for that long. -/
theorem liveUntil_set (v : String) {ttl : ℕ} (httl : 0 < ttl) :
    ((s.exec now (.set k v ttl)).2).LiveUntil k (now + ttl) := by
  refine ⟨⟨.text v, some (now + ttl)⟩, ?_, fun e he => ?_⟩
  · simp [exec, Nat.ne_of_gt httl]
  · exact Nat.le_of_eq (Option.some.inj he)

/-- The key survives every command on another key, every lookup, and every write of its own
that would itself last until `t`. -/
theorem LiveUntil.exec (h : s.LiveUntil k t) {c : Command κ}
    (hc : c.key ≠ k ∨ c = .hasKey k ∨ ∃ v ttl, c = .set k v ttl ∧ t ≤ now + ttl) :
    ((s.exec now c).2).LiveUntil k t := by
  rcases hc with hne | rfl | ⟨v, ttl, rfl, ht⟩
  · obtain ⟨c', hc', he⟩ := h
    exact ⟨c', (exec_other hne).trans hc', he⟩
  · exact h
  · rcases Nat.eq_zero_or_pos ttl with rfl | hpos
    · exact h
    · exact (liveUntil_set v hpos).mono ht

/-- Every stored counter has been incremented. -/
def Positive (s : Store κ) : Prop := ∀ k n e, s k = some ⟨.int n, e⟩ → 1 ≤ n

omit [DecidableEq κ] in
/-- The empty store has no counters. -/
theorem Positive.empty : (Store.empty : Store κ).Positive := by
  intro k n e h
  simp [Store.empty] at h

/-- No command makes a counter that has not been incremented. -/
theorem Positive.exec (h : s.Positive) (now : ℕ) (c : Command κ) : (s.exec now c).2.Positive := by
  have hupdate : ∀ {k} {v : Option Cell}, (∀ n e, v = some ⟨.int n, e⟩ → 1 ≤ n) →
      Store.Positive (Function.update s k v) := by
    intro k v hv k' n e hk'
    by_cases heq : k' = k
    · subst heq
      rw [Function.update_self] at hk'
      exact hv n e hk'
    · rw [Function.update_of_ne heq] at hk'
      exact h k' n e hk'
  cases c with
  | hasKey k => exact h
  | set k v ttl =>
    simp only [Store.exec]
    split
    · exact h
    · exact hupdate (by simp)
  | increment k =>
    simp only [Store.exec]
    split
    · exact hupdate (by simp)
    · rename_i n e hget
      split
      · refine hupdate fun n' e' heq => ?_
        have := h k n e (eq_some_of_get hget)
        simp only [Option.some.injEq, Cell.mk.injEq, Value.int.injEq] at heq
        omega
      · exact h
    · exact h
  | expire k ttl =>
    simp only [Store.exec]
    split
    · exact h
    · rename_i c hget
      refine hupdate fun n e heq => ?_
      split at heq
      · simp at heq
      · obtain ⟨v, e'⟩ := c
        simp only [Option.some.injEq, Cell.mk.injEq] at heq
        exact h k n e' (heq.1 ▸ eq_some_of_get hget)
  | delete k => exact hupdate (by simp)

/-- What an increment leaves at its key: a new counter without expiry where none was visible, and
otherwise the counter with the expiry that it had, unless the increment is refused. -/
theorem exec_increment_cases (s : Store κ) (now : ℕ) (k : κ) :
    (s.get now k = none ∧ (s.exec now (.increment k)).2 k = some ⟨.int 1, none⟩) ∨
    (∃ n e, s k = some ⟨.int n, e⟩ ∧ s.get now k = some ⟨.int n, e⟩ ∧ n < maxCounter ∧
      (s.exec now (.increment k)).2 k = some ⟨.int (n + 1), e⟩) ∨
    ((s.exec now (.increment k)).1 = none ∧ (s.exec now (.increment k)).2 = s) := by
  cases hget : s.get now k with
  | none => exact .inl ⟨rfl, by simp [exec, hget]⟩
  | some c =>
    obtain ⟨v, e⟩ := c
    cases v with
    | text t => exact .inr (.inr (by simp [exec, hget]))
    | int n =>
      by_cases hmax : n < maxCounter
      · exact .inr (.inl ⟨n, e, eq_some_of_get hget, rfl, hmax, by simp [exec, hget, hmax]⟩)
      · exact .inr (.inr (by simp [exec, hget, hmax]))

/-- No increment sets an expiry. -/
theorem expiry_of_exec_increment {k' : κ} {v : Value} {e : ℕ}
    (h : (s.exec now (.increment k)).2 k' = some ⟨v, some e⟩) : ∃ v', s k' = some ⟨v', some e⟩ := by
  by_cases hk : k = k'
  · subst hk
    rcases exec_increment_cases s now k with ⟨-, hcell⟩ | ⟨n, e', hs, -, -, hcell⟩ | ⟨-, hsame⟩
    · rw [hcell] at h
      simp at h
    · rw [hcell, Option.some.injEq, Cell.mk.injEq] at h
      exact ⟨_, h.2 ▸ hs⟩
    · exact ⟨v, by rwa [hsame] at h⟩
  · rw [exec_other (c := .increment k) hk] at h
    exact ⟨v, h⟩

/-- The key is stored without expiry. -/
def Persistent (s : Store κ) (k : κ) : Prop := ∃ v, s k = some ⟨v, none⟩

/-- A key is without expiry after an increment that begins it, or as it was before. -/
theorem persistent_exec_increment_iff {k' : κ} : (s.exec now (.increment k)).2.Persistent k' ↔
    (k = k' ∧ s.get now k = none) ∨ s.Persistent k' := by
  by_cases hk : k = k'
  · subst hk
    rcases exec_increment_cases s now k with ⟨hget, hcell⟩ | ⟨n, e, hs, hget, -, hcell⟩ | ⟨hnone, hsame⟩
    · exact iff_of_true ⟨_, hcell⟩ (.inl ⟨rfl, hget⟩)
    · simp [Persistent, hcell, hs, hget]
    · have hget : s.get now k ≠ none := by
        intro hget
        simp [exec, hget] at hnone
      simp [hsame, hget]
  · simp [Persistent, exec_other (c := .increment k) hk, hk]

/-- A key is without expiry after a command that sets one if it was so before and is another key. -/
theorem persistent_exec_expire_iff {k' : κ} {ttl : ℕ} :
    (s.exec now (.expire k ttl)).2.Persistent k' ↔ s.Persistent k' ∧ k ≠ k' := by
  by_cases hk : k = k'
  · subst hk
    refine iff_of_false ?_ (by simp)
    rintro ⟨v, hv⟩
    simp only [exec] at hv
    split at hv
    · rename_i hget
      rw [get_of_persistent hv] at hget
      simp at hget
    · simp only [Function.update_self] at hv
      split at hv <;> simp at hv
  · simp [Persistent, exec_other (c := .expire k ttl) hk, hk]

/-- An expiry is the one that the command sets, or was there before. -/
theorem expiry_of_exec_expire {k' : κ} {ttl e : ℕ} {v : Value}
    (h : (s.exec now (.expire k ttl)).2 k' = some ⟨v, some e⟩) :
    (k' = k ∧ e = now + ttl) ∨ s k' = some ⟨v, some e⟩ := by
  by_cases hk : k = k'
  · subst hk
    simp only [exec] at h
    split at h
    · exact .inr h
    · simp only [Function.update_self] at h
      split at h
      · simp at h
      · rw [Option.some.injEq, Cell.mk.injEq, Option.some.injEq] at h
        exact .inl ⟨rfl, h.2.symm⟩
  · rw [exec_other (c := .expire k ttl) hk] at h
    exact .inr h

end Store

end ApiFirewall.KeyValue
