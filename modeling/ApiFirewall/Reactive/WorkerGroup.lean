import ApiFirewall.OffsetGroup
import ApiFirewall.Reactive.Trace
import Mathlib.Data.List.Pairwise

/-!
# A worker and its successors

The processes of a group each work on one item at a time; the work is a program, and an item without a
program ends the loop of the process. A process that takes over cuts off the work that its predecessor has
not ended.

However the process fares, every item below its position is accounted for. The invariant is about all
efforts at once, in the order in which they began.
-/

namespace ApiFirewall.Reactive

variable {π Op : Type} {Res : Op → Type}

/-- One effort at an item: the process that made it, the calls it has performed, and whether it has
come to its end. -/
structure Effort (π Op : Type) (Res : Op → Type) where
  process : ℕ
  item : π × ℕ
  events : List (Event Op Res)
  completed : Bool

/-- The effort with one more call. -/
def Effort.extended (a : Effort π Op Res) (e : Event Op Res) : Effort π Op Res :=
  { a with events := a.events ++ [e] }

/-- What the processes have in hand and have left behind: how many there have been, whether the loop of the
present one goes on, its current work, the efforts that are over, and the offsets that were left out where
a process began at the end of a partition. -/
structure Worker (π Op : Type) (Res : Op → Type) where
  starts : ℕ
  running : Bool
  current : Option (Effort π Op Res × Mono Op Res Unit)
  ended : List (Effort π Op Res)
  skipped : π → List (ℕ × ℕ)

/-- The efforts in the order in which they began. -/
def Worker.efforts (w : Worker π Op Res) : List (Effort π Op Res) :=
  w.ended ++ (w.current.map Prod.fst).toList

/-- A process and its predecessors, and the partitions that they work on. -/
abbrev WorkerGroup (π Op : Type) (Res : Op → Type) := OffsetGroup π (Worker π Op Res)

namespace WorkerGroup

/-- What a process does: it fetches an item (an item that ends its loop may count as fetched or not), or its
work performs a call, delivers a joint result or ends. -/
inductive Act (π Op : Type) (Res : Op → Type) where
  | fetch (p : π) (counted : Bool)
  | call (path : List Branch) (reply : (op : Op) → Signal (Res op))
  | join (path : List Branch)
  | finish

/-- Nothing has been appended, and there is no process. -/
def init : WorkerGroup π Op Res := ⟨.init, ⟨0, false, none, [], fun _ => []⟩⟩

/-- What a new process begins with. -/
def takeOver (g : WorkerGroup π Op Res) : Worker π Op Res where
  starts := g.process.starts + 1
  running := true
  current := none
  ended := g.process.efforts
  skipped := fun p =>
    if (g.committed p).isNone then (g.next p, g.ends p) :: g.process.skipped p
    else g.process.skipped p

/-- The work that a process has in hand. -/
def working (g : WorkerGroup π Op Res) (a : Effort π Op Res) (m : Mono Op Res Unit) :
    Worker π Op Res :=
  { g.process with current := some (a, m) }

/-- The process has come to the end of its work. -/
def finished (g : WorkerGroup π Op Res) (a : Effort π Op Res) : Worker π Op Res :=
  { g.process with current := none, ended := g.process.ended ++ [{ a with completed := true }] }

variable [DecidableEq π] (work : π × ℕ → Option (Mono Op Res Unit))

/-- One action of the process; `none` if it cannot happen. -/
def act (g : WorkerGroup π Op Res) : Act π Op Res → Option (WorkerGroup π Op Res)
  | .fetch p counted =>
    if g.process.running ∧ g.process.current.isNone ∧ g.next p < g.ends p then
      match work (p, g.next p) with
      | none => some ⟨if counted then g.passed p else g.toOffsets, { g.process with running := false }⟩
      | some m => some ⟨g.passed p, g.working ⟨g.process.starts, (p, g.next p), [], false⟩ m⟩
    else none
  | .call path reply => g.process.current.bind fun c => (c.2.next path).map fun n =>
      { g with process := g.working (c.1.extended ⟨path, n.1, reply n.1⟩) (n.2 (reply n.1)) }
  | .join path => g.process.current.bind fun c => (c.2.join path).map fun m =>
      { g with process := g.working c.1 m }
  | .finish => g.process.current.bind fun c => c.2.outcome.map fun _ =>
      { g with process := g.finished c.1 }

/-- The workers of a group. -/
def member : Member π (Worker π Op Res) (Act π Op Res) where
  takeOver := takeOver
  act := act work

/-- The states that actions lead to. -/
abbrev Reached (g : WorkerGroup π Op Res) : Prop :=
  OffsetGroup.Reached (member work) (fun _ _ => True) init g

omit [DecidableEq π] in
/-- An item has been attempted, or left out by a process, or has no program. -/
inductive Accounted (w : Worker π Op Res) (item : π × ℕ) : Prop where
  | attempted (a : Effort π Op Res) (hmem : a ∈ w.efforts) (h : a.item = item)
  | skipped (range : ℕ × ℕ) (hmem : range ∈ w.skipped item.1) (hfrom : range.1 ≤ item.2)
      (hto : item.2 < range.2)
  | unworkable (h : work item = none)

/-- What an earlier effort has to do with a later one: processes work one after the other, an effort
that is not completed is the last one of its process, and a process goes through a partition in
order. -/
structure Before (a b : Effort π Op Res) : Prop where
  process : a.process ≤ b.process
  cut : a.completed = false → a.process < b.process
  offset : a.process = b.process → a.item.1 = b.item.1 → a.item.2 < b.item.2

/-- The calls of an effort are those of the program of its item, which has ended if the effort is
completed. -/
structure Traced (a : Effort π Op Res) (m' : Mono Op Res Unit) : Prop where
  trace : ∃ m, work a.item = some m ∧ Trace m a.events m'
  completed : a.completed = true → ∃ s, m' = .done s

/-- What is in hand is unfinished work of the present process. -/
structure Underway (w : Worker π Op Res) : Prop where
  traced : ∀ a ∈ w.ended, ∃ m', Traced work a m'
  current : ∀ a m', w.current = some (a, m') →
    Traced work a m' ∧ a.completed = false ∧ a.process = w.starts
  superseded : ∀ a ∈ w.ended, a.completed = false → a.process < w.starts

/-- The invariant of the offsets and efforts. -/
structure Sound (g : WorkerGroup π Op Res) : Prop where
  items : g.Covered (Accounted work g.process) (Accounted work g.process)
  underway : Underway work g.process
  ordered : g.process.efforts.Pairwise Before
  numbered : ∀ a ∈ g.process.efforts, a.process ≤ g.process.starts
  position : ∀ a ∈ g.process.efforts, a.process = g.process.starts → a.item.2 < g.next a.item.1

variable {work} {g : WorkerGroup π Op Res} {w w' : Worker π Op Res}

omit [DecidableEq π] in
/-- What is accounted for stays so, as efforts at items and what was left out are kept. -/
theorem Accounted.mono {item : π × ℕ} (h : Accounted work w item)
    (hefforts : ∀ a ∈ w.efforts, ∃ a' ∈ w'.efforts, a'.item = a.item)
    (hskipped : ∀ range ∈ w.skipped item.1, range ∈ w'.skipped item.1) : Accounted work w' item := by
  cases h with
  | attempted a hmem hitem =>
    obtain ⟨a', hmem', heq⟩ := hefforts a hmem
    exact .attempted a' hmem' (heq.trans hitem)
  | skipped range hmem hfrom hto => exact .skipped range (hskipped range hmem) hfrom hto
  | unworkable h => exact .unworkable h

omit [DecidableEq π] in
/-- Nothing has happened yet. -/
theorem sound_init : Sound work (init : WorkerGroup π Op Res) where
  items := Offsets.covered_init
  underway := ⟨by simp [init], by simp [init], by simp [init]⟩
  ordered := by simp [init, Worker.efforts]
  numbered := by simp [init, Worker.efforts]
  position := by simp [init, Worker.efforts]

omit [DecidableEq π] in
/-- A new process leaves out what nobody has committed and takes over after its predecessors. -/
theorem Sound.takeOver (h : Sound work g) : Sound work ⟨g.resumed, WorkerGroup.takeOver g⟩ := by
  have hefforts : (WorkerGroup.takeOver g).efforts = g.process.efforts := by
    simp [Worker.efforts, WorkerGroup.takeOver]
  have hkept : ∀ item, Accounted work g.process item → Accounted work (WorkerGroup.takeOver g) item := by
    intro item haccounted
    refine haccounted.mono (fun a ha => ⟨a, hefforts ▸ ha, rfl⟩) fun range hrange => ?_
    simp only [WorkerGroup.takeOver]
    split
    · exact List.mem_cons_of_mem _ hrange
    · exact hrange
  constructor
  · refine (h.items.imp hkept hkept).resumed (fun _ => id) fun p hcommitted m hm => ?_
    by_cases hnext : m < g.next p
    · exact hkept _ (h.items.fetched p m hnext)
    · refine .skipped (g.next p, g.ends p) ?_ (Nat.not_lt.mp hnext) hm
      simp [WorkerGroup.takeOver, hcommitted]
  · refine ⟨fun a ha => ?_, by simp [WorkerGroup.takeOver],
      fun a ha _ => Nat.lt_succ_of_le (h.numbered a ha)⟩
    rcases List.mem_append.mp ha with hended | hcurrent
    · exact h.underway.traced a hended
    · obtain ⟨c, hc, rfl⟩ : ∃ c, g.process.current = some c ∧ c.1 = a := by
        simpa [Option.mem_toList] using hcurrent
      exact ⟨c.2, (h.underway.current c.1 c.2 hc).1⟩
  · change (WorkerGroup.takeOver g).efforts.Pairwise Before
    rw [hefforts]
    exact h.ordered
  · intro a ha
    change a ∈ (WorkerGroup.takeOver g).efforts at ha
    rw [hefforts] at ha
    exact Nat.le_succ_of_le (h.numbered a ha)
  · intro a ha hprocess
    change a ∈ (WorkerGroup.takeOver g).efforts at ha
    rw [hefforts] at ha
    have hle := h.numbered a ha
    change a.process = g.process.starts + 1 at hprocess
    omega

omit [DecidableEq π] in
/-- What comes before an effort comes before whatever replaces it. -/
theorem Before.replace {x a b : Effort π Op Res} (h : Before x a) (hprocess : b.process = a.process)
    (hitem : b.item = a.item) : Before x b where
  process := hprocess ▸ h.process
  cut := fun hcut => hprocess ▸ h.cut hcut
  offset := by
    rw [hprocess, hitem]
    exact h.offset

omit [DecidableEq π] in
/-- The present work goes on, or ends. -/
theorem Sound.advance {a b : Effort π Op Res} {m : Mono Op Res Unit} (h : Sound work g)
    (hcurrent : g.process.current = some (a, m)) (hprocess : b.process = a.process)
    (hitem : b.item = a.item) (hstarts : w.starts = g.process.starts)
    (hskipped : w.skipped = g.process.skipped) (hefforts : w.efforts = g.process.ended ++ [b])
    (hunderway : Underway work w) : Sound work { g with process := w } := by
  have hold : g.process.efforts = g.process.ended ++ [a] := by simp [Worker.efforts, hcurrent]
  have hkept : ∀ item, Accounted work g.process item → Accounted work w item := by
    intro item haccounted
    refine haccounted.mono (fun x hx => ?_) fun range hrange => hskipped ▸ hrange
    rw [hefforts]
    rw [hold] at hx
    rcases List.mem_append.mp hx with hx | hx
    · exact ⟨x, List.mem_append_left _ hx, rfl⟩
    · obtain rfl := List.mem_singleton.mp hx
      exact ⟨b, by simp, hitem⟩
  have hordered := h.ordered
  have hnumbered := h.numbered
  have hposition := h.position
  rw [hold] at hordered hnumbered hposition
  refine ⟨h.items.imp hkept hkept, hunderway, ?_, ?_, ?_⟩
  · dsimp only
    rw [hefforts]
    obtain ⟨hended, hsingle, hcross⟩ := List.pairwise_append.mp hordered
    refine List.pairwise_append.mpr ⟨hended, List.pairwise_singleton _ _, fun x hx y hy => ?_⟩
    obtain rfl := List.mem_singleton.mp hy
    exact (hcross x hx a (List.mem_singleton_self _)).replace hprocess hitem
  · dsimp only
    rw [hefforts, hstarts]
    refine List.forall_mem_append.mpr ⟨fun x hx => hnumbered x (List.mem_append_left _ hx), ?_⟩
    rw [List.forall_mem_singleton, hprocess]
    exact hnumbered a (by simp)
  · dsimp only
    rw [hefforts, hstarts]
    refine List.forall_mem_append.mpr ⟨fun x hx => hposition x (List.mem_append_left _ hx), ?_⟩
    rw [List.forall_mem_singleton, hprocess, hitem]
    exact hposition a (by simp)

/-- A fetched item is worked on from then on. -/
theorem Sound.fetch {p : π} {m : Mono Op Res Unit} (h : Sound work g)
    (hidle : g.process.current = none) (hwork : work (p, g.next p) = some m) :
    Sound work ⟨g.passed p, g.working ⟨g.process.starts, (p, g.next p), [], false⟩ m⟩ := by
  have hold : g.process.efforts = g.process.ended := by simp [Worker.efforts, hidle]
  have hordered := h.ordered
  have hnumbered := h.numbered
  have hposition := h.position
  rw [hold] at hordered hnumbered hposition
  have hkept : ∀ item, Accounted work g.process item → Accounted work
      (g.working ⟨g.process.starts, (p, g.next p), [], false⟩ m) item := by
    intro item haccounted
    refine haccounted.mono (fun x hx => ⟨x, ?_, rfl⟩) fun range hrange => hrange
    rw [hold] at hx
    exact List.mem_append_left _ hx
  constructor
  · exact (h.items.imp hkept hkept).passed
      (.attempted ⟨g.process.starts, (p, g.next p), [], false⟩ (by simp [Worker.efforts, working]) rfl)
  · refine ⟨h.underway.traced, fun a m' hcurrent => ?_, h.underway.superseded⟩
    obtain ⟨rfl, rfl⟩ := Prod.mk.inj (Option.some.inj hcurrent)
    exact ⟨⟨⟨m, hwork, .nil m⟩, by simp⟩, rfl, rfl⟩
  · refine List.pairwise_append.mpr ⟨hordered, List.pairwise_singleton _ _, fun x hx y hy => ?_⟩
    obtain rfl := List.mem_singleton.mp hy
    refine ⟨hnumbered x hx, h.underway.superseded x hx, fun hprocess hpartition => ?_⟩
    have hbehind := hposition x hx hprocess
    rwa [hpartition] at hbehind
  · refine List.forall_mem_append.mpr ⟨hnumbered, ?_⟩
    exact List.forall_mem_singleton.mpr (Nat.le_refl _)
  · refine List.forall_mem_append.mpr ⟨fun x hx hprocess => ?_, ?_⟩
    · exact Nat.lt_of_lt_of_le (hposition x hx hprocess) (g.next_le_passed p _)
    · refine List.forall_mem_singleton.mpr fun _ => ?_
      simp [Offsets.passed]

/-- An item that ends the loop has no program, whether it counts as fetched or not. -/
theorem Sound.stop {p : π} {counted : Bool} (h : Sound work g) (hwork : work (p, g.next p) = none) :
    Sound work ⟨if counted then g.passed p else g.toOffsets, { g.process with running := false }⟩ := by
  have hkept : ∀ item, Accounted work g.process item →
      Accounted work { g.process with running := false } item :=
    fun _ haccounted => haccounted.mono (fun x hx => ⟨x, hx, rfl⟩) fun range hrange => hrange
  have hitems := h.items.imp hkept hkept
  have hunderway : Underway work { g.process with running := false } :=
    ⟨h.underway.traced, h.underway.current, h.underway.superseded⟩
  cases counted with
  | false => exact ⟨hitems, hunderway, h.ordered, h.numbered, h.position⟩
  | true =>
    exact ⟨hitems.passed (.unworkable hwork), hunderway, h.ordered, h.numbered, fun a ha hprocess =>
      Nat.lt_of_lt_of_le (h.position a ha hprocess) (g.next_le_passed p _)⟩

/-- Every action of the process keeps the invariant. -/
theorem Sound.act {a : Act π Op Res} {g' : WorkerGroup π Op Res} (h : Sound work g)
    (hstep : WorkerGroup.act work g a = some g') : Sound work g' := by
  cases a with
  | fetch p counted =>
    simp only [WorkerGroup.act] at hstep
    split at hstep
    · rename_i hready
      have hidle : g.process.current = none := Option.isNone_iff_eq_none.mp hready.2.1
      split at hstep
      · rename_i hwork
        obtain rfl := Option.some.inj hstep
        exact h.stop hwork
      · rename_i m hwork
        obtain rfl := Option.some.inj hstep
        exact h.fetch hidle hwork
    · cases hstep
  | call path reply =>
    obtain ⟨⟨a, m⟩, hcurrent, hstep⟩ := Option.bind_eq_some_iff.mp hstep
    obtain ⟨⟨op, k⟩, hnext, rfl⟩ := Option.map_eq_some_iff.mp hstep
    obtain ⟨⟨⟨m₀, hwork, htrace⟩, -⟩, hfalse, hprocess⟩ := h.underway.current a m hcurrent
    refine h.advance hcurrent (b := a.extended ⟨path, op, reply op⟩) rfl rfl rfl rfl rfl
      ⟨h.underway.traced, fun b m' hb => ?_, h.underway.superseded⟩
    obtain ⟨rfl, rfl⟩ := Prod.mk.inj (Option.some.inj hb)
    refine ⟨⟨⟨m₀, hwork, htrace.snoc_call hnext _⟩, fun hcompleted => ?_⟩, hfalse, hprocess⟩
    rw [show a.completed = true from hcompleted] at hfalse
    cases hfalse
  | join path =>
    obtain ⟨⟨a, m⟩, hcurrent, hstep⟩ := Option.bind_eq_some_iff.mp hstep
    obtain ⟨m₁, hjoin, rfl⟩ := Option.map_eq_some_iff.mp hstep
    obtain ⟨⟨⟨m₀, hwork, htrace⟩, -⟩, hfalse, hprocess⟩ := h.underway.current a m hcurrent
    refine h.advance hcurrent (b := a) rfl rfl rfl rfl rfl
      ⟨h.underway.traced, fun b m' hb => ?_, h.underway.superseded⟩
    obtain ⟨rfl, rfl⟩ := Prod.mk.inj (Option.some.inj hb)
    exact ⟨⟨⟨m₀, hwork, htrace.snoc_join hjoin⟩, by simp [hfalse]⟩, hfalse, hprocess⟩
  | finish =>
    obtain ⟨⟨a, m⟩, hcurrent, hstep⟩ := Option.bind_eq_some_iff.mp hstep
    obtain ⟨s, houtcome, rfl⟩ := Option.map_eq_some_iff.mp hstep
    obtain ⟨⟨⟨m₀, hwork, htrace⟩, -⟩, hfalse, hprocess⟩ := h.underway.current a m hcurrent
    obtain rfl := Mono.eq_done_of_outcome houtcome
    refine h.advance hcurrent (b := { a with completed := true }) rfl rfl rfl rfl
      (by simp [Worker.efforts, finished]) ⟨?_, by simp [finished], ?_⟩
    · refine List.forall_mem_append.mpr ⟨h.underway.traced, List.forall_mem_singleton.mpr ?_⟩
      exact ⟨_, ⟨m₀, hwork, htrace⟩, fun _ => ⟨s, rfl⟩⟩
    · exact List.forall_mem_append.mpr
        ⟨h.underway.superseded, List.forall_mem_singleton.mpr (by simp)⟩

/-- Every reached state is sound. -/
theorem Reached.sound (h : Reached work g) : Sound work g := by
  refine h.rule sound_init (fun g p ih => ?_) (fun g p offset hoffset _ ih => ?_)
    (fun g _ ih => ih.takeOver) fun g a g' hstep _ ih => ih.act hstep
  · exact ⟨ih.items.produced p, ih.underway, ih.ordered, ih.numbered, ih.position⟩
  · exact ⟨ih.items.committing hoffset fun _ _ => id, ih.underway, ih.ordered, ih.numbered, ih.position⟩

end WorkerGroup

end ApiFirewall.Reactive
