import Mathlib.Data.Nat.Notation
import Mathlib.Logic.Function.Basic
import Mathlib.Tactic.TypeStar

/-!
# Processes behind committed offsets

Items are appended to partitions, and a process fetches the items of a partition in order. At arbitrary
moments an offset up to the position of the process is committed, whatever has become of what was fetched.
A new process can take over at any point: it begins where a partition has been committed, or at its end
where it has not.

What the processes do with the items is a parameter. An invariant of the offsets says what holds of every
item below a position and of every item below a committed offset.
-/

namespace ApiFirewall

variable {π : Type}

/-- The end of each partition, the position of the process, and the committed offsets. -/
structure Offsets (π : Type) where
  ends : π → ℕ
  next : π → ℕ
  committed : π → Option ℕ

namespace Offsets

/-- Nothing has been appended. -/
def init : Offsets π := ⟨fun _ => 0, fun _ => 0, fun _ => none⟩

/-- Where a new process begins. -/
def resumed (o : Offsets π) : Offsets π :=
  { o with next := fun p => (o.committed p).getD (o.ends p) }

variable [DecidableEq π]

/-- One more item in a partition. -/
def produced (o : Offsets π) (p : π) : Offsets π :=
  { o with ends := Function.update o.ends p (o.ends p + 1) }

/-- The item at the front of a partition has been fetched. -/
def passed (o : Offsets π) (p : π) : Offsets π :=
  { o with next := Function.update o.next p (o.next p + 1) }

/-- An offset of a partition is committed. -/
def committing (o : Offsets π) (p : π) (offset : ℕ) : Offsets π :=
  { o with committed := Function.update o.committed p (some offset) }

/-- Fetching moves no position back. -/
theorem next_le_passed (o : Offsets π) (p q : π) : o.next q ≤ (o.passed p).next q := by
  by_cases hq : q = p
  · subst hq
    simp [passed]
  · simp [passed, hq]

/-- One property holds of every item below a position, and another one of every item below a committed
offset. -/
structure Covered (Fetched Committed : π × ℕ → Prop) (o : Offsets π) : Prop where
  fetched : ∀ p, ∀ m < o.next p, Fetched (p, m)
  committed : ∀ p offset, o.committed p = some offset → ∀ m < offset, Committed (p, m)

variable {Fetched Committed Fetched' Committed' : π × ℕ → Prop} {o : Offsets π} {p : π}

omit [DecidableEq π] in
/-- Nothing has been fetched or committed yet. -/
theorem covered_init : Covered Fetched Committed (init : Offsets π) where
  fetched := by simp [init]
  committed := by simp [init]

omit [DecidableEq π] in
/-- The properties may be weakened. -/
theorem Covered.imp (h : Covered Fetched Committed o) (hfetched : ∀ i, Fetched i → Fetched' i)
    (hcommitted : ∀ i, Committed i → Committed' i) : Covered Fetched' Committed' o where
  fetched p m hm := hfetched _ (h.fetched p m hm)
  committed p offset hoffset m hm := hcommitted _ (h.committed p offset hoffset m hm)

/-- One more item is not fetched yet. -/
theorem Covered.produced (h : Covered Fetched Committed o) (p : π) :
    Covered Fetched Committed (o.produced p) := ⟨h.fetched, h.committed⟩

/-- The fetched item has the property too. -/
theorem Covered.passed (h : Covered Fetched Committed o) (hitem : Fetched (p, o.next p)) :
    Covered Fetched Committed (o.passed p) := by
  refine ⟨fun q m hm => ?_, h.committed⟩
  change m < Function.update o.next p (o.next p + 1) q at hm
  by_cases hq : q = p
  · subst hq
    rw [Function.update_self] at hm
    rcases Nat.lt_succ_iff_lt_or_eq.mp hm with hlt | rfl
    · exact h.fetched q m hlt
    · exact hitem
  · rw [Function.update_of_ne hq] at hm
    exact h.fetched q m hm

/-- What has been fetched can be committed if it has the property of what is committed. -/
theorem Covered.committing {offset : ℕ} (h : Covered Fetched Committed o) (hoffset : offset ≤ o.next p)
    (hitems : ∀ m < offset, Fetched (p, m) → Committed (p, m)) :
    Covered Fetched Committed (o.committing p offset) := by
  refine ⟨h.fetched, fun q offset' hcommitted m hm => ?_⟩
  by_cases hq : q = p
  · subst hq
    obtain rfl : offset = offset' := by simpa [Offsets.committing] using hcommitted
    exact hitems m hm (h.fetched q m (Nat.lt_of_lt_of_le hm hoffset))
  · exact h.committed q offset' (by simpa [Offsets.committing, hq] using hcommitted) m hm

omit [DecidableEq π] in
/-- A new process begins behind committed items, and behind all items of a partition without a committed
offset; what its predecessor had fetched beyond does not matter. -/
theorem Covered.resumed (h : Covered Fetched Committed o) (hitems : ∀ i, Committed i → Fetched' i)
    (huncommitted : ∀ p, o.committed p = none → ∀ m < o.ends p, Fetched' (p, m)) :
    Covered Fetched' Committed o.resumed := by
  refine ⟨fun p m hm => ?_, h.committed⟩
  change m < (o.committed p).getD (o.ends p) at hm
  cases hcommitted : o.committed p with
  | none =>
    rw [hcommitted] at hm
    exact huncommitted p hcommitted m hm
  | some offset =>
    rw [hcommitted] at hm
    exact hitems _ (h.committed p offset hcommitted m hm)

end Offsets

/-- Offsets, and what the processes that go by them have in hand and have left behind. -/
structure OffsetGroup (π : Type) (σ : Type*) extends Offsets π where
  process : σ

/-- How the processes of a group work: what a new one begins with, and what its own actions do. -/
structure Member (π : Type) (σ α : Type*) where
  takeOver : OffsetGroup π σ → σ
  act : OffsetGroup π σ → α → Option (OffsetGroup π σ)

namespace OffsetGroup

/-- What can happen: an item is appended, an offset is committed, a new process takes over, or the process
takes an action of its own. -/
inductive Action (π : Type) (α : Type*) where
  | produce (p : π)
  | commit (p : π) (offset : ℕ)
  | start
  | act (a : α)
  deriving DecidableEq, Repr

variable {σ α : Type*} [DecidableEq π] (member : Member π σ α)

/-- One action; `none` if it cannot happen. -/
def step (g : OffsetGroup π σ) : Action π α → Option (OffsetGroup π σ)
  | .produce p => some { g with toOffsets := g.produced p }
  | .commit p offset =>
    if offset ≤ g.next p then some { g with toOffsets := g.committing p offset } else none
  | .start => some ⟨g.resumed, member.takeOver g⟩
  | .act a => member.act g a

/-- The states that actions satisfying `ok` lead to. -/
inductive Reached (ok : OffsetGroup π σ → Action π α → Prop) (g₀ : OffsetGroup π σ) :
    OffsetGroup π σ → Prop where
  | init : Reached ok g₀ g₀
  | step {g g' : OffsetGroup π σ} {action : Action π α} (hreached : Reached ok g₀ g)
      (hok : ok g action) (hstep : g.step member action = some g') : Reached ok g₀ g'

/-- Perform a list of actions. -/
def exec (g : OffsetGroup π σ) : List (Action π α) → Option (OffsetGroup π σ)
  | [] => some g
  | action :: actions => (g.step member action).bind fun g' => g'.exec actions

variable {member} {ok : OffsetGroup π σ → Action π α → Prop} {g₀ g g' : OffsetGroup π σ}

/-- A list of actions that satisfy `ok` when they happen leads to a reached state. -/
theorem reached_of_exec {actions : List (Action π α)} (hreached : Reached member ok g₀ g)
    (hok : ∀ g action, action ∈ actions → ok g action)
    (hexec : g.exec member actions = some g') : Reached member ok g₀ g' := by
  induction actions generalizing g with
  | nil =>
    obtain rfl := Option.some.inj hexec
    exact hreached
  | cons action actions ih =>
    obtain ⟨g₁, hstep, hrest⟩ := Option.bind_eq_some_iff.mp hexec
    exact ih (.step hreached (hok g action (List.mem_cons_self ..)) hstep)
      (fun g a ha => hok g a (List.mem_cons_of_mem _ ha)) hrest

/-- What holds at first and is kept by every action that satisfies `ok` holds in every reached state. It is
enough to look at the four kinds of actions. -/
theorem Reached.rule {I : OffsetGroup π σ → Prop} (h : Reached member ok g₀ g) (hinit : I g₀)
    (hproduce : ∀ g p, I g → I { g with toOffsets := g.produced p })
    (hcommit : ∀ g p offset, offset ≤ g.next p → ok g (.commit p offset) → I g →
      I { g with toOffsets := g.committing p offset })
    (hstart : ∀ g, ok g .start → I g → I ⟨g.resumed, member.takeOver g⟩)
    (hact : ∀ g a g', member.act g a = some g' → ok g (.act a) → I g → I g') : I g := by
  induction h with
  | init => exact hinit
  | @step g g' action _ hok hstep ih =>
    cases action with
    | produce p =>
      obtain rfl := Option.some.inj hstep
      exact hproduce g p ih
    | commit p offset =>
      obtain ⟨hoffset, heq⟩ := Option.ite_none_right_eq_some.mp hstep
      obtain rfl := Option.some.inj heq
      exact hcommit g p offset hoffset hok ih
    | start =>
      obtain rfl := Option.some.inj hstep
      exact hstart g hok ih
    | act a => exact hact g a g' hstep hok ih

end OffsetGroup

end ApiFirewall
