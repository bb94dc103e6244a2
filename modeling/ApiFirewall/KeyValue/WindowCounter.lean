import ApiFirewall.KeyValue.Store
import ApiFirewall.ListSplit
import Mathlib.Algebra.Order.Ring.Int
import Mathlib.Data.List.Count

/-!
# Counters that are incremented and expire if new

A caller increments a key and, if it was answered 1, then sets the key's time to live to its
own window length. The two commands are separate, so other callers can come in between, and
several callers with different window lengths can share one key.

`CounterInv` is what every order of such commands keeps: an increment answered 1 finds every
earlier life of the key over, each having lasted at least the window of the caller that began
it. From this follow a bound on small counts in an interval and, for callers that never meet
in one life of the key, the exact fixed-window count of each kind of caller.
-/

namespace ApiFirewall.KeyValue

variable {κ γ τ : Type}

/-- One answered increment. -/
structure Hit (γ : Type) where
  time : ℕ
  caller : γ
  count : ℤ

/-- The answered increments of one key, oldest first: each either begins a life of the key,
when all earlier lives are over, or continues the present one. -/
inductive Lives (len : γ → ℕ) : List (Hit γ) → Prop where
  | nil : Lives len []
  | begins {hits : List (Hit γ)} {h : Hit γ} (hlives : Lives len hits) (hcount : h.count = 1)
      (hover : ∀ g ∈ hits, g.count = 1 → g.time + len g.caller ≤ h.time) : Lives len (hits ++ [h])
  | continues {hits : List (Hit γ)} {g h : Hit γ} (hlives : Lives len (hits ++ [g]))
      (hcount : h.count = g.count + 1) : Lives len (hits ++ [g] ++ [h])

/-- Counts are positive. -/
theorem Lives.one_le {len : γ → ℕ} {hits : List (Hit γ)} (h : Lives len hits) :
    ∀ g ∈ hits, 1 ≤ g.count := by
  induction h with
  | nil => simp
  | begins _ hcount _ ih =>
    intro g hg
    rcases List.mem_append.mp hg with hold | hnew
    · exact ih g hold
    · obtain rfl := List.mem_singleton.mp hnew
      exact le_of_eq hcount.symm
  | @continues hits g h _ hcount ih =>
    intro g' hg
    rcases List.mem_append.mp hg with hold | hnew
    · exact ih g' hold
    · obtain rfl := List.mem_singleton.mp hnew
      have := ih g (by simp)
      omega

/-- What a key's cell says about the increments it has answered. `pending` is the caller that
was answered 1 and has not set the time to live yet. -/
structure CounterInv (len : γ → ℕ) (k : κ) (now : ℕ) (s : Store κ) (hits : List (Hit γ))
    (pending : Option γ) : Prop where
  lives : Lives len hits
  time_le : ∀ h ∈ hits, h.time ≤ now
  absent : s k = none → hits = []
  counted : ∀ c, s k = some c → ∃ pre g, hits = pre ++ [g] ∧ c.value = .int g.count
  expiring : ∀ v e, s k = some ⟨v, some e⟩ →
    ∀ g ∈ hits, g.count = 1 → g.time + len g.caller ≤ e
  waiting : ∀ c, pending = some c → (∃ v, s k = some ⟨v, none⟩) ∧
    ∀ g ∈ hits, g.count = 1 → g.time + len g.caller ≤ now + len c

namespace CounterInv

variable {len : γ → ℕ} {k : κ} {now : ℕ} {s : Store κ} {hits : List (Hit γ)}
  {pending : Option γ}

/-- A key that nobody has touched. -/
theorem empty (len : γ → ℕ) (k : κ) : CounterInv len k 0 Store.empty [] none where
  lives := .nil
  time_le := by simp
  absent := fun _ => rfl
  counted := by simp [Store.empty]
  expiring := by simp [Store.empty]
  waiting := by simp

/-- Time passes. -/
theorem tick (h : CounterInv len k now s hits pending) (d : ℕ) :
    CounterInv len k (now + d) s hits pending where
  lives := h.lives
  time_le := fun g hg => Nat.le_trans (h.time_le g hg) (Nat.le_add_right _ _)
  absent := h.absent
  counted := h.counted
  expiring := h.expiring
  waiting := by
    intro c hc
    obtain ⟨hs, hall⟩ := h.waiting c hc
    refine ⟨hs, fun g hg hone => ?_⟩
    have := hall g hg hone
    omega

/-- Only the key's own cell matters. -/
theorem congr {s' : Store κ} (h : CounterInv len k now s hits pending) (hs : s' k = s k) :
    CounterInv len k now s' hits pending where
  lives := h.lives
  time_le := h.time_le
  absent := hs ▸ h.absent
  counted := hs ▸ h.counted
  expiring := hs ▸ h.expiring
  waiting := hs ▸ h.waiting

variable [DecidableEq κ]

/-- An increment that finds the key invisible begins a life; nobody was pending. -/
theorem increment_new (h : CounterInv len k now s hits pending) (hget : s.get now k = none)
    (c : γ) :
    pending = none ∧ CounterInv len k now (s.exec now (.increment k)).2 (hits ++ [⟨now, c, 1⟩])
      (some c) := by
  have hover : ∀ g ∈ hits, g.count = 1 → g.time + len g.caller ≤ now := by
    cases hs : s k with
    | none => simp [h.absent hs]
    | some cell =>
      obtain ⟨e, he, hle⟩ := Store.expired_of_get_eq_none hget hs
      intro g hg hone
      exact Nat.le_trans (h.expiring cell.value e (by rw [hs, ← he]) g hg hone) hle
  have hcell : (s.exec now (.increment k)).2 k = some ⟨.int 1, none⟩ := by
    simp [Store.exec, hget]
  refine ⟨?_, ?_⟩
  · cases pending with
    | none => rfl
    | some c' =>
      obtain ⟨⟨v, hv⟩, -⟩ := h.waiting c' rfl
      rw [Store.get_of_persistent hv] at hget
      simp at hget
  · refine ⟨.begins h.lives rfl hover, ?_, by simp [hcell], ?_, by simp [hcell], ?_⟩
    · intro g hg
      rcases List.mem_append.mp hg with hold | hnew
      · exact h.time_le g hold
      · obtain rfl := List.mem_singleton.mp hnew
        exact Nat.le_refl _
    · intro cell hc
      rw [hcell, Option.some.injEq] at hc
      exact ⟨hits, _, rfl, by rw [← hc]⟩
    · intro c' hc'
      obtain rfl := Option.some.inj hc'
      refine ⟨⟨_, hcell⟩, fun g hg hone => ?_⟩
      rcases List.mem_append.mp hg with hold | hnew
      · exact Nat.le_trans (hover g hold hone) (Nat.le_add_right _ _)
      · obtain rfl := List.mem_singleton.mp hnew
        exact Nat.le_refl _

/-- An increment that finds the key visible continues its life. -/
theorem increment_live (h : CounterInv len k now s hits pending) {n : ℤ} {e : Option ℕ}
    (hget : s.get now k = some ⟨.int n, e⟩) (hmax : n < Store.maxCounter) (c : γ) :
    n + 1 ≠ 1 ∧ CounterInv len k now (s.exec now (.increment k)).2
      (hits ++ [⟨now, c, n + 1⟩]) pending := by
  have hs := Store.eq_some_of_get hget
  obtain ⟨pre, g, rfl, hval⟩ := h.counted _ hs
  have hn : n = g.count := by simpa using hval
  have hpos : 1 ≤ g.count := h.lives.one_le g (by simp)
  have hcell : (s.exec now (.increment k)).2 k = some ⟨.int (n + 1), e⟩ := by
    simp [Store.exec, hget, hmax]
  have hold : ∀ g' ∈ pre ++ [g] ++ [⟨now, c, n + 1⟩], g'.count = 1 → g' ∈ pre ++ [g] := by
    intro g' hg' hone
    rcases List.mem_append.mp hg' with hmem | hnew
    · exact hmem
    · obtain rfl := List.mem_singleton.mp hnew
      simp only at hone
      omega
  refine ⟨by omega, .continues h.lives (by simp [hn]), ?_, by simp [hcell], ?_, ?_, ?_⟩
  · intro g' hg'
    rcases List.mem_append.mp hg' with hmem | hnew
    · exact h.time_le g' hmem
    · obtain rfl := List.mem_singleton.mp hnew
      exact Nat.le_refl _
  · intro cell hc
    rw [hcell, Option.some.injEq] at hc
    exact ⟨pre ++ [g], _, rfl, by rw [← hc]⟩
  · intro v e' hc g' hg' hone
    rw [hcell, Option.some.injEq, Cell.mk.injEq] at hc
    exact h.expiring _ e' (by rw [hs, hc.2]) g' (hold g' hg' hone) hone
  · intro c' hc'
    obtain ⟨⟨v, hv⟩, hall⟩ := h.waiting c' hc'
    rw [hs, Option.some.injEq, Cell.mk.injEq] at hv
    exact ⟨⟨_, by rw [hcell, hv.2]⟩, fun g' hg' hone => hall g' (hold g' hg' hone) hone⟩

/-- The pending caller sets its time to live, and nobody is pending. -/
theorem expire {c : γ} (h : CounterInv len k now s hits (some c)) (hlen : 0 < len c) :
    CounterInv len k now (s.exec now (.expire k (len c))).2 hits none := by
  obtain ⟨⟨v, hv⟩, hall⟩ := h.waiting c rfl
  have hcell : (s.exec now (.expire k (len c))).2 k = some ⟨v, some (now + len c)⟩ := by
    simp [Store.exec, Store.get_of_persistent hv, Nat.ne_of_gt hlen]
  refine ⟨h.lives, h.time_le, by simp [hcell], ?_, ?_, by simp⟩
  · intro cell hc
    rw [hcell, Option.some.injEq] at hc
    obtain ⟨pre, g, hhits, hval⟩ := h.counted _ hv
    exact ⟨pre, g, hhits, by rw [← hc]; exact hval⟩
  · intro v' e hc g hg hone
    rw [hcell, Option.some.injEq, Cell.mk.injEq, Option.some.injEq] at hc
    exact hc.2 ▸ hall g hg hone

end CounterInv

/-- How many increments in the half-open interval of length `w` from `t` were answered at
most `θ`. -/
def smallHits (t w : ℕ) (θ : ℤ) (hits : List (Hit γ)) : ℕ :=
  hits.countP fun h => decide (t ≤ h.time ∧ h.time < t + w ∧ h.count ≤ θ)

/-- One more increment adds at most itself. -/
theorem smallHits_concat (t w : ℕ) (θ : ℤ) (hits : List (Hit γ)) (h : Hit γ) :
    smallHits t w θ (hits ++ [h]) = smallHits t w θ hits +
      if t ≤ h.time ∧ h.time < t + w ∧ h.count ≤ θ then 1 else 0 := by
  unfold smallHits
  rw [List.countP_append, List.countP_singleton]
  simp only [decide_eq_true_eq]

/-- Before the interval there is nothing to count. -/
theorem smallHits_eq_zero {t w : ℕ} {θ : ℤ} {hits : List (Hit γ)}
    (h : ∀ g ∈ hits, g.time < t) : smallHits t w θ hits = 0 := by
  apply List.countP_eq_zero.mpr
  intro g hg
  have := h g hg
  simp only [decide_eq_true_eq]
  omega

/-- Where the present life began relative to the interval bounds what has been counted: a life
that began before it contributes its own count, one that began inside it follows at most one
other, and a later one contributes nothing. -/
private def Burst (t w : ℕ) (θ : ℤ) (hits : List (Hit γ)) (birth : ℕ) (last : Hit γ) : Prop :=
  (birth < t ∧ (smallHits t w θ hits : ℤ) ≤ min last.count θ) ∨
  (t ≤ birth ∧ birth < t + w ∧ (smallHits t w θ hits : ℤ) ≤ θ + min last.count θ) ∨
  (t + w ≤ birth ∧ (smallHits t w θ hits : ℤ) ≤ 2 * θ)

private theorem burst_of_lives {len : γ → ℕ} {hits : List (Hit γ)} (h : Lives len hits)
    (hsorted : hits.Pairwise fun g g' => g.time ≤ g'.time) {w : ℕ} (hw : ∀ c, w ≤ len c)
    {θ : ℤ} (hθ : 0 ≤ θ) (t : ℕ) :
    hits = [] ∨ ∃ pre last first, hits = pre ++ [last] ∧ first ∈ hits ∧ first.count = 1 ∧
      first.time ≤ last.time ∧ Burst t w θ hits first.time last := by
  induction h with
  | nil => exact .inl rfl
  | @begins hits h hlives hcount hover ih =>
    have hle : ∀ g ∈ hits, g.time ≤ h.time := fun g hg =>
      (List.pairwise_append.mp hsorted).2.2 g hg h (by simp)
    refine .inr ⟨hits, h, h, rfl, by simp, hcount, Nat.le_refl _, ?_⟩
    unfold Burst
    rw [smallHits_concat, hcount]
    rcases ih (List.pairwise_append.mp hsorted).1 with rfl | ⟨pre, last, first, rfl, hmem, hone, -, hb⟩
    · have hzero : smallHits t w θ ([] : List (Hit γ)) = 0 := rfl
      rw [hzero]
      split <;> omega
    · have hgap := hover first hmem hone
      have hlen := hw first.caller
      rcases Nat.lt_or_ge h.time t with hbefore | hafter
      · have hzero : smallHits t w θ (pre ++ [last]) = 0 :=
          smallHits_eq_zero fun g hg => Nat.lt_of_le_of_lt (hle g hg) hbefore
        rw [hzero]
        split <;> omega
      · rcases hb with ⟨hbirth, hcnt⟩ | ⟨hbirth, hbirth', hcnt⟩ | ⟨hbirth, hcnt⟩
        · split <;> omega
        · split <;> omega
        · split <;> omega
  | @continues hits g h hlives hcount ih =>
    have hsorted' := (List.pairwise_append.mp hsorted).1
    have hle : g.time ≤ h.time := (List.pairwise_append.mp hsorted).2.2 g (by simp) h (by simp)
    rcases ih hsorted' with hnil | ⟨pre, last, first, heq, hmem, hone, hfl, hb⟩
    · simp at hnil
    · obtain ⟨rfl, hlast⟩ := List.append_inj' heq rfl
      obtain rfl := List.singleton_inj.mp hlast
      have hpos := hlives.one_le g (by simp)
      refine .inr ⟨hits ++ [g], h, first, rfl, List.mem_append_left _ hmem, hone, by omega, ?_⟩
      unfold Burst at hb ⊢
      rw [smallHits_concat, hcount]
      rcases hb with ⟨hbirth, hcnt⟩ | ⟨hbirth, hbirth', hcnt⟩ | ⟨hbirth, hcnt⟩
      · split <;> omega
      · split <;> omega
      · split <;> omega

/-- If every caller's window is at least `w` long, then at most `2 * θ` increments in any
half-open interval of length `w` are answered at most `θ`: the interval meets at most two lives
of the key, and each life answers every count once. -/
theorem Lives.smallHits_le {len : γ → ℕ} {hits : List (Hit γ)} (h : Lives len hits)
    (hsorted : hits.Pairwise fun g g' => g.time ≤ g'.time) {w : ℕ} (hw : ∀ c, w ≤ len c)
    {θ : ℤ} (hθ : 0 ≤ θ) (t : ℕ) : (smallHits t w θ hits : ℤ) ≤ 2 * θ := by
  rcases burst_of_lives h hsorted hw hθ t with rfl | ⟨pre, last, first, -, -, -, -, hb⟩
  · change (0 : ℤ) ≤ 2 * θ
    omega
  · unfold Burst at hb
    omega

/-- The window in which an event at `t` falls, with the number of events in it so far: an open
window of the given length takes the event, otherwise the event opens a new one. -/
def openWindow (length : ℕ) : Option (ℕ × ℕ) → ℕ → ℕ × ℕ
  | some (start, n), t => if t < start + length then (start, n + 1) else (t, 1)
  | none, t => (t, 1)

/-- The last window and its number of events, after events at the given instants. -/
def windowOf (length : ℕ) (times : List ℕ) : Option (ℕ × ℕ) :=
  times.foldl (fun w t => some (openWindow length w t)) none

/-- The number of events since the current window opened, the last event included. -/
def windowCount (length : ℕ) (times : List ℕ) : ℕ := ((windowOf length times).map Prod.snd).getD 0

/-- The last event counts in the window it falls in. -/
theorem windowOf_concat (length : ℕ) (times : List ℕ) (t : ℕ) :
    windowOf length (times ++ [t]) = some (openWindow length (windowOf length times) t) := by
  simp [windowOf]

/-- The increment that began the present life of the key. -/
def beginning (hits : List (Hit γ)) : Option (Hit γ) := hits.reverse.find? fun h => h.count = 1

/-- A new life begins with its first increment; any other increment leaves it as it is. -/
theorem beginning_concat (hits : List (Hit γ)) (h : Hit γ) :
    beginning (hits ++ [h]) = if h.count = 1 then some h else beginning hits := by
  by_cases hone : h.count = 1 <;> simp [beginning, hone]

/-- The present life was begun by one of the increments that were answered 1. -/
theorem mem_of_beginning {hits : List (Hit γ)} {first : Hit γ} (h : beginning hits = some first) :
    first ∈ hits ∧ first.count = 1 := by
  have hmem := List.mem_of_find?_eq_some h
  have hone := List.find?_some h
  exact ⟨List.mem_reverse.mp hmem, by simpa using hone⟩

section Windows

variable [DecidableEq τ] (kind : γ → τ) (length : τ → ℕ)

/-- When the callers of one kind made their increments. -/
def timesOf (i : τ) (hits : List (Hit γ)) : List ℕ :=
  (hits.filter fun h => kind h.caller = i).map Hit.time

/-- Every increment is answered by the fixed-window count of its own kind. -/
def CountsWindows (hits : List (Hit γ)) : Prop :=
  ∀ (pre : List (Hit γ)) (h : Hit γ) (post : List (Hit γ)), hits = pre ++ h :: post →
    h.count = windowCount (length (kind h.caller)) (timesOf kind (kind h.caller) (pre ++ [h]))

/-- Every increment that finds the key visible comes in an open window of its own kind. -/
def Undisturbed (hits : List (Hit γ)) : Prop :=
  ∀ (pre : List (Hit γ)) (h : Hit γ) (post : List (Hit γ)), hits = pre ++ h :: post →
    h.count ≠ 1 → ∃ start n, windowOf (length (kind h.caller))
      (timesOf kind (kind h.caller) pre) = some (start, n) ∧ h.time < start + length (kind h.caller)

variable {kind length}

private theorem timesOf_concat_same (hits : List (Hit γ)) (h : Hit γ) :
    timesOf kind (kind h.caller) (hits ++ [h]) = timesOf kind (kind h.caller) hits ++ [h.time] := by
  simp [timesOf, List.filter_append]

private theorem timesOf_concat_other {i : τ} (hits : List (Hit γ)) (h : Hit γ)
    (hne : kind h.caller ≠ i) : timesOf kind i (hits ++ [h]) = timesOf kind i hits := by
  simp [timesOf, List.filter_append, hne]

/-- Windows open only where a life of the key begins, and the window of the kind that began the
present life counts exactly that life's increments. -/
private def Tracks (kind : γ → τ) (length : τ → ℕ) (hits : List (Hit γ)) : Prop :=
  (∀ i start n, windowOf (length i) (timesOf kind i hits) = some (start, n) →
    ∃ g ∈ hits, g.count = 1 ∧ kind g.caller = i ∧ g.time = start) ∧
  ∀ (first : Hit γ) (pre : List (Hit γ)) (last : Hit γ), beginning hits = some first →
    hits = pre ++ [last] → ∃ n : ℕ,
      windowOf (length (kind first.caller)) (timesOf kind (kind first.caller) hits) =
        some (first.time, n) ∧ last.count = n

variable {len : γ → ℕ} {hits : List (Hit γ)}

/-- An increment that begins a life opens a window of its kind. -/
private theorem Tracks.begins (ht : Tracks kind length hits) (hlen : ∀ c, len c = length (kind c))
    {h : Hit γ} (hcount : h.count = 1)
    (hover : ∀ g ∈ hits, g.count = 1 → g.time + len g.caller ≤ h.time) :
    openWindow (length (kind h.caller))
        (windowOf (length (kind h.caller)) (timesOf kind (kind h.caller) hits)) h.time =
      (h.time, 1) ∧ Tracks kind length (hits ++ [h]) := by
  have hopen : openWindow (length (kind h.caller))
      (windowOf (length (kind h.caller)) (timesOf kind (kind h.caller) hits)) h.time =
        (h.time, 1) := by
    rcases hw : windowOf (length (kind h.caller)) (timesOf kind (kind h.caller) hits) with
      _ | ⟨start, n⟩
    · rfl
    · obtain ⟨g, hg, hone, hk, rfl⟩ := ht.1 _ _ _ hw
      have hgap := hover g hg hone
      rw [hlen, hk] at hgap
      simp [openWindow, Nat.not_lt.mpr hgap]
  refine ⟨hopen, fun i start n hw => ?_, fun first pre last hfirst hlast => ?_⟩
  · by_cases hk : kind h.caller = i
    · subst hk
      rw [timesOf_concat_same, windowOf_concat, hopen, Option.some.injEq, Prod.mk.injEq] at hw
      exact ⟨h, by simp, hcount, rfl, hw.1⟩
    · rw [timesOf_concat_other _ _ hk] at hw
      obtain ⟨g, hg, hrest⟩ := ht.1 i start n hw
      exact ⟨g, List.mem_append_left _ hg, hrest⟩
  · rw [beginning_concat, if_pos hcount, Option.some.injEq] at hfirst
    subst hfirst
    obtain ⟨-, heq⟩ := List.append_inj' hlast rfl
    obtain rfl := List.singleton_inj.mp heq
    exact ⟨1, by rw [timesOf_concat_same, windowOf_concat, hopen], by simp [hcount]⟩

/-- Once the key has answered an increment, some increment began its present life. -/
private theorem Lives.exists_beginning (h : Lives len hits) (hne : hits ≠ []) :
    ∃ first, beginning hits = some first := by
  induction h with
  | nil => exact absurd rfl hne
  | @begins hits h _ hcount _ _ => exact ⟨h, by rw [beginning_concat, if_pos hcount]⟩
  | @continues hits g h _ _ ih =>
    rw [beginning_concat]
    split
    · exact ⟨h, rfl⟩
    · exact ih (by simp)

/-- Every other life is over when the present one begins. -/
private theorem Lives.over (h : Lives len hits) {first : Hit γ}
    (hfirst : beginning hits = some first) :
    ∀ g ∈ hits, g.count = 1 → g = first ∨ g.time + len g.caller ≤ first.time := by
  induction h with
  | nil => simp
  | @begins hits h _ hcount hover ih =>
    rw [beginning_concat, if_pos hcount, Option.some.injEq] at hfirst
    subst hfirst
    intro g hg hone
    rcases List.mem_append.mp hg with hold | hnew
    · exact .inr (hover g hold hone)
    · exact .inl (List.mem_singleton.mp hnew)
  | @continues hits g h hlives hcount ih =>
    have hpos := hlives.one_le g (by simp)
    have hne : h.count ≠ 1 := by omega
    rw [beginning_concat, if_neg hne] at hfirst
    intro g' hg' hone
    rcases List.mem_append.mp hg' with hold | hnew
    · exact ih hfirst g' hold hone
    · obtain rfl := List.mem_singleton.mp hnew
      exact absurd hone hne

/-- A window that is open in a life of the key was opened by the increment that began the life. -/
private theorem Tracks.begun_of_open {g h first : Hit γ} (ht : Tracks kind length (hits ++ [g]))
    (hlen : ∀ c, len c = length (kind c)) (hlives : Lives len (hits ++ [g]))
    (hle : ∀ g' ∈ hits ++ [g], g'.time ≤ h.time) (hfirst : beginning (hits ++ [g]) = some first)
    {start n : ℕ} (hw : windowOf (length (kind h.caller))
      (timesOf kind (kind h.caller) (hits ++ [g])) = some (start, n))
    (hopen : h.time < start + length (kind h.caller)) :
    kind first.caller = kind h.caller ∧ first.time = start := by
  obtain ⟨g', hg', hone, hk, rfl⟩ := ht.1 _ _ _ hw
  rcases hlives.over hfirst g' hg' hone with rfl | hgap
  · exact ⟨hk, rfl⟩
  · rw [hlen, hk] at hgap
    have := hle first (mem_of_beginning hfirst).1
    omega

/-- An increment that continues a life is answered by the count of its own window exactly if that
window is open. -/
private theorem Tracks.count_iff {g h first : Hit γ} (ht : Tracks kind length (hits ++ [g]))
    (hlen : ∀ c, len c = length (kind c)) (hlives : Lives len (hits ++ [g]))
    (hcount : h.count = g.count + 1) (hle : ∀ g' ∈ hits ++ [g], g'.time ≤ h.time)
    (hfirst : beginning (hits ++ [g]) = some first) :
    h.count = ((openWindow (length (kind h.caller)) (windowOf (length (kind h.caller))
        (timesOf kind (kind h.caller) (hits ++ [g]))) h.time).2 : ℕ) ↔
      ∃ start n, windowOf (length (kind h.caller)) (timesOf kind (kind h.caller) (hits ++ [g])) =
        some (start, n) ∧ h.time < start + length (kind h.caller) := by
  have hpos := hlives.one_le g (by simp)
  constructor
  · intro heq
    rcases hw : windowOf (length (kind h.caller)) (timesOf kind (kind h.caller) (hits ++ [g]))
      with _ | ⟨start, m⟩
    · rw [hw] at heq
      simp only [openWindow] at heq
      omega
    · rw [hw] at heq
      simp only [openWindow] at heq
      split at heq
      · rename_i hopen
        exact ⟨start, m, rfl, hopen⟩
      · simp only at heq
        omega
  · rintro ⟨start, m, hw, hopen⟩
    obtain ⟨hk, rfl⟩ := ht.begun_of_open hlen hlives hle hfirst hw hopen
    obtain ⟨n, hw', hn⟩ := ht.2 first hits g hfirst rfl
    rw [hk, hw, Option.some.injEq, Prod.mk.injEq] at hw'
    rw [hw]
    simp only [openWindow, if_pos hopen]
    omega

/-- Continuing a life in its own window keeps the windows in step with the lives. -/
private theorem Tracks.continues {g h first : Hit γ} (ht : Tracks kind length (hits ++ [g]))
    (hcount : h.count = g.count + 1) (hpos : 1 ≤ g.count)
    (hfirst : beginning (hits ++ [g]) = some first) (hk : kind first.caller = kind h.caller)
    (hin : h.time < first.time + length (kind first.caller)) :
    Tracks kind length (hits ++ [g] ++ [h]) := by
  obtain ⟨n, hw, hn⟩ := ht.2 first hits g hfirst rfl
  have hopen : openWindow (length (kind h.caller)) (windowOf (length (kind h.caller))
      (timesOf kind (kind h.caller) (hits ++ [g]))) h.time = (first.time, n + 1) := by
    rw [← hk, hw]
    simp only [openWindow, if_pos hin]
  refine ⟨fun i start m hwi => ?_, fun first' pre last hfirst' hlast => ?_⟩
  · by_cases hki : kind h.caller = i
    · subst hki
      rw [timesOf_concat_same, windowOf_concat, hopen, Option.some.injEq, Prod.mk.injEq] at hwi
      obtain ⟨hmem, hone⟩ := mem_of_beginning hfirst
      exact ⟨first, List.mem_append_left _ hmem, hone, hk, hwi.1⟩
    · rw [timesOf_concat_other _ _ hki] at hwi
      obtain ⟨g', hg', hrest⟩ := ht.1 i start m hwi
      exact ⟨g', List.mem_append_left _ hg', hrest⟩
  · rw [beginning_concat, if_neg (by omega), hfirst, Option.some.injEq] at hfirst'
    subst hfirst'
    obtain ⟨-, heq⟩ := List.append_inj' hlast rfl
    obtain rfl := List.singleton_inj.mp heq
    refine ⟨n + 1, ?_, by omega⟩
    rw [hk, timesOf_concat_same, windowOf_concat, hopen]

/-- One more increment counts windows if it is answered by the count of its own kind's window. -/
private theorem countsWindows_concat (hits : List (Hit γ)) (h : Hit γ) :
    CountsWindows kind length (hits ++ [h]) ↔ CountsWindows kind length hits ∧
      h.count = ((openWindow (length (kind h.caller)) (windowOf (length (kind h.caller))
        (timesOf kind (kind h.caller) hits)) h.time).2 : ℕ) := by
  unfold CountsWindows
  rw [List.forall_split_concat, windowCount, timesOf_concat_same, windowOf_concat]
  rfl

/-- One more increment is undisturbed if it begins the counter or comes in an open window of its own
kind. -/
private theorem undisturbed_concat (hits : List (Hit γ)) (h : Hit γ) :
    Undisturbed kind length (hits ++ [h]) ↔ Undisturbed kind length hits ∧
      (h.count ≠ 1 → ∃ start n, windowOf (length (kind h.caller))
        (timesOf kind (kind h.caller) hits) = some (start, n) ∧
          h.time < start + length (kind h.caller)) := by
  unfold Undisturbed
  rw [List.forall_split_concat]

private theorem countsWindows_iff_and_tracks (h : Lives len hits)
    (hsorted : hits.Pairwise fun g g' => g.time ≤ g'.time) (hlen : ∀ c, len c = length (kind c)) :
    (CountsWindows kind length hits ↔ Undisturbed kind length hits) ∧
      (Undisturbed kind length hits → Tracks kind length hits) := by
  induction h with
  | nil =>
    refine ⟨⟨fun _ pre h post hnil => ?_, fun _ pre h post hnil => ?_⟩, fun _ => ⟨?_, ?_⟩⟩
    · simp at hnil
    · simp at hnil
    · simp [timesOf, windowOf]
    · simp [beginning]
  | @begins hits h hlives hcount hover ih =>
    obtain ⟨ih, iht⟩ := ih (List.pairwise_append.mp hsorted).1
    have hund : Undisturbed kind length (hits ++ [h]) ↔ Undisturbed kind length hits :=
      (undisturbed_concat hits h).trans (and_iff_left fun hne => absurd hcount hne)
    refine ⟨?_, fun hu => ((iht (hund.mp hu)).begins hlen hcount hover).2⟩
    rw [hund, ← ih, countsWindows_concat]
    refine and_iff_left_of_imp fun hc => ?_
    rw [((iht (ih.mp hc)).begins hlen hcount hover).1]
    simpa using hcount
  | @continues hits g h hlives hcount ih =>
    obtain ⟨ih, iht⟩ := ih (List.pairwise_append.mp hsorted).1
    have hle : ∀ g' ∈ hits ++ [g], g'.time ≤ h.time := fun g' hg' =>
      (List.pairwise_append.mp hsorted).2.2 g' hg' h (by simp)
    have hpos := hlives.one_le g (by simp)
    have hne : h.count ≠ 1 := by omega
    obtain ⟨first, hfirst⟩ := hlives.exists_beginning (by simp)
    rw [countsWindows_concat, undisturbed_concat, ← ih, imp_iff_right hne]
    refine ⟨and_congr_right fun hc => ?_, fun ⟨hu, start, n, hw, hopen⟩ => ?_⟩
    · exact (iht (ih.mp hc)).count_iff hlen hlives hcount hle hfirst
    · obtain ⟨hk, rfl⟩ := (iht (ih.mp hu)).begun_of_open hlen hlives hle hfirst hw hopen
      exact (iht (ih.mp hu)).continues hcount hpos hfirst hk (hk ▸ hopen)

/-- Every increment is answered by the fixed-window count of its own kind if and only if every
increment that finds the key visible comes in an open window of its own kind. -/
theorem Lives.countsWindows_iff (h : Lives len hits)
    (hsorted : hits.Pairwise fun g g' => g.time ≤ g'.time) (hlen : ∀ c, len c = length (kind c)) :
    CountsWindows kind length hits ↔ Undisturbed kind length hits :=
  (countsWindows_iff_and_tracks h hsorted hlen).1

end Windows

end ApiFirewall.KeyValue
