import ApiFirewall.Reactive.Trace
import Mathlib.Data.List.Induction

/-!
# Many sources over one shared state

A world holds a clock, the shared state, one thread for each started source and the log of
all calls performed so far. Each action starts a thread, lets the clock advance, performs the
next call of one thread, delivers a joint result, or abandons a thread. The environment picks
the action and, where a call leaves anything open, its outcome; a run is any sequence of
actions, so it fixes no order between threads.

Two rules carry every later argument: the calls of one thread are a trace of its program, and
a property of the shared state and the log that every call preserves holds in every run.
-/

namespace ApiFirewall.Reactive

/-- One call as the log records it: when, by which thread, and what happened. -/
structure Entry (Op : Type) (Res : Op → Type) where
  time : ℕ
  thread : ℕ
  event : Event Op Res

/-- The programs that can run, what starts them, and how the shared state answers calls. -/
structure System (Op : Type) (Res : Op → Type) (σ ε L S : Type) where
  /-- The program of a thread. -/
  body : L → Mono Op Res Unit
  /-- A stimulus from outside starts a thread if the history permits it. -/
  spawn : List (Entry Op Res) → S → Option L
  /-- The reply to a call and the shared state after it. -/
  handle : ε → ℕ → (op : Op) → σ → Signal (Res op) × σ

/-- A clock, the shared state, the threads with their labels, and the log. -/
structure World (Op : Type) (Res : Op → Type) (σ L : Type) where
  now : ℕ
  shared : σ
  threads : List (L × Mono Op Res Unit)
  log : List (Entry Op Res)

/-- What the environment can do next. -/
inductive Action (S ε : Type) where
  | tick (d : ℕ)
  | spawn (s : S)
  | call (i : ℕ) (path : List Branch) (env : ε)
  | join (i : ℕ) (path : List Branch)
  | cancel (i : ℕ)

variable {Op : Type} {Res : Op → Type} {σ ε L S : Type}

/-- The calls of one thread, in the order in which it performed them. -/
def eventsOf (i : ℕ) (log : List (Entry Op Res)) : List (Event Op Res) :=
  (log.filter fun e => e.thread = i).map Entry.event

/-- The calls of one thread after one more entry. -/
theorem eventsOf_concat (i : ℕ) (log : List (Entry Op Res)) (e : Entry Op Res) :
    eventsOf i (log ++ [e]) =
      if e.thread = i then eventsOf i log ++ [e.event] else eventsOf i log := by
  by_cases h : e.thread = i <;> simp [eventsOf, h]

/-- A logged call is one of the calls of its thread. -/
theorem mem_eventsOf {i : ℕ} {log : List (Entry Op Res)} {ev : Event Op Res} :
    ev ∈ eventsOf i log ↔ ∃ e ∈ log, e.thread = i ∧ e.event = ev := by
  simp [eventsOf, and_assoc]

namespace World

/-- Nothing has happened yet. -/
def init (s : σ) : World Op Res σ L := ⟨0, s, [], []⟩

/-- The labels of the threads, in the order in which they were started. -/
def labels (w : World Op Res σ L) : List L := w.threads.map Prod.fst

/-- The calls of one thread. -/
def events (w : World Op Res σ L) (i : ℕ) : List (Event Op Res) := eventsOf i w.log

/-- Every label belongs to a thread. -/
theorem exists_thread {w : World Op Res σ L} {i : ℕ} {l : L} (h : w.labels[i]? = some l) :
    ∃ m, w.threads[i]? = some (l, m) := by
  rw [labels, List.getElem?_map, Option.map_eq_some_iff] at h
  obtain ⟨⟨l', m⟩, hm, rfl⟩ := h
  exact ⟨m, hm⟩

end World

namespace System

variable (sys : System Op Res σ ε L S)

/-- One action; `none` if the world does not offer it. -/
def step : Action S ε → World Op Res σ L → Option (World Op Res σ L)
  | .tick d, w => some { w with now := w.now + d }
  | .spawn s, w => (sys.spawn w.log s).map fun l =>
      { w with threads := w.threads ++ [(l, sys.body l)] }
  | .call i path env, w => w.threads[i]?.bind fun t => (t.2.next path).map fun n =>
      let answer := sys.handle env w.now n.1 w.shared
      { w with
        shared := answer.2
        threads := w.threads.set i (t.1, n.2 answer.1)
        log := w.log ++ [⟨w.now, i, ⟨path, n.1, answer.1⟩⟩] }
  | .join i path, w => w.threads[i]?.bind fun t => (t.2.join path).map fun m =>
      { w with threads := w.threads.set i (t.1, m) }
  | .cancel i, w => w.threads[i]?.map fun t =>
      { w with threads := w.threads.set i (t.1, .done .error) }

/-- The worlds that actions satisfying `P` lead to. -/
inductive Run (P : Action S ε → Prop) (w₀ : World Op Res σ L) : World Op Res σ L → Prop where
  | refl : Run P w₀ w₀
  | step {w w' : World Op Res σ L} {a : Action S ε} (hrun : Run P w₀ w) (ha : P a)
      (hstep : sys.step a w = some w') : Run P w₀ w'

/-- Perform a list of actions. -/
def exec : List (Action S ε) → World Op Res σ L → Option (World Op Res σ L)
  | [], w => some w
  | a :: as, w => (sys.step a w).bind (exec as)

/-- The world that a list of actions leads to, where each of them is offered. -/
def after (as : List (Action S ε)) (w₀ : World Op Res σ L) : World Op Res σ L :=
  (sys.exec as w₀).getD w₀

/-- A step that a list of actions takes: the world before it, its action, and the world after it. -/
def StepOf (as : List (Action S ε)) (w₀ w : World Op Res σ L) (a : Action S ε)
    (w' : World Op Res σ L) : Prop :=
  ∃ pre post, as = pre ++ a :: post ∧ sys.exec pre w₀ = some w ∧ sys.step a w = some w'

variable {sys} {P : Action S ε → Prop} {w₀ w w' : World Op Res σ L}

/-- Runs compose. -/
theorem Run.trans (h₁ : sys.Run P w₀ w) (h₂ : sys.Run P w w') : sys.Run P w₀ w' := by
  induction h₂ with
  | refl => exact h₁
  | step _ ha hstep ih => exact .step ih ha hstep

/-- Executing a list of permitted actions is a run. -/
theorem Run.of_exec {as : List (Action S ε)} (h : sys.exec as w₀ = some w)
    (hP : ∀ a ∈ as, P a) : sys.Run P w₀ w := by
  induction as generalizing w₀ with
  | nil =>
    simp only [exec, Option.some.injEq] at h
    exact h ▸ .refl
  | cons a as ih =>
    obtain ⟨w₁, hstep, hrest⟩ := Option.bind_eq_some_iff.mp h
    obtain ⟨ha, has⟩ := List.forall_mem_cons.mp hP
    exact Run.trans (.step .refl ha hstep) (ih hrest has)

/-- The world that a list of permitted actions leads to is reached by a run. -/
theorem Run.after {as : List (Action S ε)} (h : (sys.exec as w₀).isSome = true)
    (hP : ∀ a ∈ as, P a) : sys.Run P w₀ (sys.after as w₀) := by
  obtain ⟨w, hw⟩ := Option.isSome_iff_exists.mp h
  rw [System.after, hw]
  exact Run.of_exec hw hP

/-- One evaluation of a list of permitted actions shows that they are a run and what it leads to. -/
theorem Run.after_and {as : List (Action S ε)} {Q : Prop}
    (h : (sys.exec as w₀).isSome = true ∧ Q) (hP : ∀ a ∈ as, P a) :
    sys.Run P w₀ (sys.after as w₀) ∧ Q := ⟨Run.after h.1 hP, h.2⟩

/-- A step of a list of actions is taken in a world that a run reaches. -/
theorem StepOf.run {as : List (Action S ε)} {a : Action S ε} (h : sys.StepOf as w₀ w a w') :
    sys.Run (fun _ => True) w₀ w := by
  obtain ⟨pre, _, -, hexec, -⟩ := h
  exact Run.of_exec hexec fun _ _ => trivial

/-- Weaker conditions on actions allow more runs. -/
theorem Run.mono {Q : Action S ε → Prop} (hPQ : ∀ a, P a → Q a) (h : sys.Run P w₀ w) :
    sys.Run Q w₀ w := by
  induction h with
  | refl => exact .refl
  | step _ ha hstep ih => exact .step ih (hPQ _ ha) hstep

/-- Lists of actions are performed one after the other. -/
theorem exec_append (as bs : List (Action S ε)) (w : World Op Res σ L) :
    sys.exec (as ++ bs) w = (sys.exec as w).bind (sys.exec bs) := by
  induction as generalizing w with
  | nil => rfl
  | cons a as ih =>
    simp only [List.cons_append, exec, Option.bind_assoc]
    congr 1
    funext w'
    exact ih w'

/-- The last of a list of actions is performed after the others. -/
theorem exec_concat_eq_some {as : List (Action S ε)} {a : Action S ε} :
    sys.exec (as ++ [a]) w = some w' ↔
      ∃ w₁, sys.exec as w = some w₁ ∧ sys.step a w₁ = some w' := by
  rw [exec_append, Option.bind_eq_some_iff]
  simp [exec]

/-- The steps of a longer list are its first one and those of the rest. -/
theorem stepOf_cons {as : List (Action S ε)} {a b : Action S ε} {w₁ : World Op Res σ L}
    (hfirst : sys.step b w₀ = some w₁) (h : sys.StepOf (b :: as) w₀ w a w') :
    (w = w₀ ∧ a = b) ∨ sys.StepOf as w₁ w a w' := by
  obtain ⟨pre, post, hsplit, hexec, hstep⟩ := h
  cases pre with
  | nil => exact .inl ⟨(Option.some.inj hexec).symm, (List.cons.inj hsplit).1.symm⟩
  | cons c pre =>
    obtain ⟨rfl, rfl⟩ := List.cons.inj hsplit
    rw [exec, hfirst, Option.bind_some] at hexec
    exact .inr ⟨pre, post, rfl, hexec, hstep⟩

/-- Every action of a list that is performed is a step of it. -/
theorem exists_stepOf {as : List (Action S ε)} (h : sys.exec as w₀ = some w) {a : Action S ε}
    (ha : a ∈ as) : ∃ w₁ w₂, sys.StepOf as w₀ w₁ a w₂ := by
  obtain ⟨pre, post, rfl⟩ := List.append_of_mem ha
  rw [exec_append] at h
  obtain ⟨w₁, hpre, hrest⟩ := Option.bind_eq_some_iff.mp h
  obtain ⟨w₂, hstep, -⟩ := Option.bind_eq_some_iff.mp hrest
  exact ⟨w₁, w₂, pre, post, rfl, hpre, hstep⟩

/-- The steps of a longer list are those of the shorter one and the last one. -/
theorem stepOf_concat {as : List (Action S ε)} {a b : Action S ε} :
    sys.StepOf (as ++ [b]) w₀ w a w' ↔
      sys.StepOf as w₀ w a w' ∨ (a = b ∧ sys.exec as w₀ = some w ∧ sys.step a w = some w') := by
  constructor
  · rintro ⟨pre, post, hsplit, hexec, hstep⟩
    rcases List.eq_nil_or_concat post with rfl | ⟨post', c, rfl⟩
    · obtain ⟨rfl, hb⟩ := List.append_inj' hsplit rfl
      exact .inr ⟨(List.singleton_inj.mp hb).symm, hexec, hstep⟩
    · rw [List.concat_eq_append, ← List.cons_append, ← List.append_assoc] at hsplit
      exact .inl ⟨pre, post', (List.append_inj' hsplit rfl).1, hexec, hstep⟩
  · rintro (⟨pre, post, rfl, hexec, hstep⟩ | ⟨rfl, hexec, hstep⟩)
    · exact ⟨pre, post ++ [b], by simp, hexec, hstep⟩
    · exact ⟨as, [], rfl, hexec, hstep⟩

/-- Some step of the list began something, and no later one ended it. -/
def BegunIn (sys : System Op Res σ ε L S) (B E : World Op Res σ L → Action S ε → Prop)
    (as : List (Action S ε)) (w₀ : World Op Res σ L) : Prop :=
  ∃ pre a rest w₁ w₂, as = pre ++ a :: rest ∧ sys.exec pre w₀ = some w₁ ∧
    sys.step a w₁ = some w₂ ∧ B w₁ a ∧ ∀ w₃ b w₄, sys.StepOf rest w₂ w₃ b w₄ → ¬ E w₃ b

/-- What some steps begin, others end and the rest keep holds from a step that begins it to the next
one that ends it. -/
theorem holds_iff_begunIn {I : World Op Res σ L → Prop}
    {B E : World Op Res σ L → Action S ε → Prop} (hinit : ¬ I w₀)
    (hstep : ∀ w a w', sys.Run (fun _ => True) w₀ w → sys.step a w = some w' →
      (I w' ↔ B w a ∨ (I w ∧ ¬ E w a)))
    {as : List (Action S ε)} (hexec : sys.exec as w₀ = some w) :
    I w ↔ sys.BegunIn B E as w₀ := by
  induction as using List.reverseRecOn generalizing w with
  | nil =>
    obtain rfl := Option.some.inj hexec
    refine iff_of_false hinit ?_
    rintro ⟨pre, a, rest, _, _, hsplit, -⟩
    simp at hsplit
  | append_singleton as b ih =>
    obtain ⟨w₁, hpre, hlast⟩ := exec_concat_eq_some.mp hexec
    rw [hstep w₁ b w (Run.of_exec hpre fun _ _ => trivial) hlast, ih hpre]
    constructor
    · rintro (hbegins | ⟨⟨pre, a, rest, w₂, w₃, rfl, hfirst, ha, hbegins, hkept⟩, hends⟩)
      · refine ⟨as, b, [], w₁, w, rfl, hpre, hlast, hbegins, ?_⟩
        rintro _ _ _ ⟨_, _, hsplit, -⟩
        simp at hsplit
      · refine ⟨pre, a, rest ++ [b], w₂, w₃, by simp, hfirst, ha, hbegins, ?_⟩
        intro w₄ c w₅ hc
        rcases stepOf_concat.mp hc with hearlier | ⟨rfl, hrest, -⟩
        · exact hkept w₄ c w₅ hearlier
        · have hsame : sys.exec (pre ++ a :: rest) w₀ = some w₄ := by
            rw [exec_append, hfirst, Option.bind_some, exec, ha, Option.bind_some, hrest]
          obtain rfl := Option.some.inj (hsame.symm.trans hpre)
          exact hends
    · rintro ⟨pre, a, rest, w₂, w₃, hsplit, hfirst, ha, hbegins, hkept⟩
      rcases List.eq_nil_or_concat rest with rfl | ⟨rest', c, rfl⟩
      · obtain ⟨rfl, hb⟩ := List.append_inj' hsplit rfl
        obtain rfl := List.singleton_inj.mp hb
        obtain rfl := Option.some.inj (hfirst.symm.trans hpre)
        exact .inl hbegins
      · rw [List.concat_eq_append, ← List.cons_append, ← List.append_assoc] at hsplit
        obtain ⟨rfl, hb⟩ := List.append_inj' hsplit rfl
        obtain rfl := List.singleton_inj.mp hb
        have hrest : sys.exec rest' w₃ = some w₁ := by
          rw [exec_append, hfirst, Option.bind_some, exec, ha, Option.bind_some] at hpre
          exact hpre
        rw [List.concat_eq_append] at hkept
        refine .inr ⟨⟨pre, a, rest', w₂, w₃, rfl, hfirst, ha, hbegins, ?_⟩, ?_⟩
        · intro w₄ d w₅ hd
          exact hkept w₄ d w₅ (stepOf_concat.mpr (.inl hd))
        · exact hkept w₁ b w (stepOf_concat.mpr (.inr ⟨rfl, hrest, hlast⟩))

/-- Performing a call: the thread offered it, the shared state answered it, it was logged. -/
theorem step_call {i : ℕ} {path : List Branch} {env : ε}
    (h : sys.step (.call i path env) w = some w') :
    ∃ l m op k, w.threads[i]? = some (l, m) ∧ m.next path = some ⟨op, k⟩ ∧
      w' = { w with
        shared := (sys.handle env w.now op w.shared).2
        threads := w.threads.set i (l, k (sys.handle env w.now op w.shared).1)
        log := w.log ++ [⟨w.now, i, ⟨path, op, (sys.handle env w.now op w.shared).1⟩⟩] } := by
  obtain ⟨⟨l, m⟩, hm, h⟩ := Option.bind_eq_some_iff.mp h
  obtain ⟨⟨op, k⟩, hn, rfl⟩ := Option.map_eq_some_iff.mp h
  exact ⟨l, m, op, k, hm, hn, rfl⟩

/-- Starting a thread appends it, with the program of its label. -/
theorem step_spawn {s : S} (h : sys.step (.spawn s) w = some w') :
    ∃ l, sys.spawn w.log s = some l ∧
      w' = { w with threads := w.threads ++ [(l, sys.body l)] } := by
  obtain ⟨l, hl, rfl⟩ := Option.map_eq_some_iff.mp h
  exact ⟨l, hl, rfl⟩

/-- Delivering a joint result changes one thread and nothing else. -/
theorem step_join {i : ℕ} {path : List Branch} (h : sys.step (.join i path) w = some w') :
    ∃ l m m', w.threads[i]? = some (l, m) ∧ m.join path = some m' ∧
      w' = { w with threads := w.threads.set i (l, m') } := by
  obtain ⟨⟨l, m⟩, hm, h⟩ := Option.bind_eq_some_iff.mp h
  obtain ⟨m', hj, rfl⟩ := Option.map_eq_some_iff.mp h
  exact ⟨l, m, m', hm, hj, rfl⟩

/-- Abandoning a thread changes that thread and nothing else. -/
theorem step_cancel {i : ℕ} (h : sys.step (.cancel i) w = some w') :
    ∃ l m, w.threads[i]? = some (l, m) ∧
      w' = { w with threads := w.threads.set i (l, .done .error) } := by
  obtain ⟨⟨l, m⟩, hm, rfl⟩ := Option.map_eq_some_iff.mp h
  exact ⟨l, m, hm, rfl⟩

/-- The log is in time order, belongs to started threads, and what it records of a thread is a
trace of that thread's program up to where the thread stands or was abandoned. -/
structure Coherent (sys : System Op Res σ ε L S) (w : World Op Res σ L) : Prop where
  time_le : ∀ e ∈ w.log, e.time ≤ w.now
  sorted : w.log.Pairwise fun e e' => e.time ≤ e'.time
  thread_lt : ∀ e ∈ w.log, e.thread < w.threads.length
  trace : ∀ i l m, w.threads[i]? = some (l, m) →
    ∃ m', Trace (sys.body l) (w.events i) m' ∧ (m = m' ∨ m = .done .error)

/-- A thread that has not been started has performed nothing. -/
theorem Coherent.events_eq_nil (h : sys.Coherent w) {i : ℕ} (hi : w.threads.length ≤ i) :
    w.events i = [] := by
  have hnone : w.log.filter (fun e => e.thread = i) = [] := by
    apply List.filter_eq_nil_iff.mpr
    intro e he
    have := h.thread_lt e he
    simp only [decide_eq_true_eq]
    omega
  simp [World.events, eventsOf, hnone]

/-- An abandoned or replaced thread leaves the other threads as they are. -/
theorem getElem?_set_cases {ts : List (L × Mono Op Res Unit)} {i j : ℕ}
    {t t' : L × Mono Op Res Unit} (h : (ts.set i t)[j]? = some t') :
    (i = j ∧ t' = t) ∨ (i ≠ j ∧ ts[j]? = some t') := by
  rw [List.getElem?_set] at h
  split at h
  · split at h
    · exact .inl ⟨‹_›, (Option.some.inj h).symm⟩
    · simp at h
  · exact .inr ⟨‹_›, h⟩

/-- Replacing the program of a thread keeps its label. -/
theorem map_fst_set {ts : List (L × Mono Op Res Unit)} {i : ℕ} {l : L}
    {m m' : Mono Op Res Unit} (hm : ts[i]? = some (l, m)) :
    (ts.set i (l, m')).map Prod.fst = ts.map Prod.fst := by
  rw [List.map_set]
  apply List.ext_getElem?
  intro j
  rw [List.getElem?_set]
  split
  · rename_i hij
    subst hij
    obtain ⟨hi, heq⟩ := List.getElem?_eq_some_iff.mp hm
    simp [hi, heq]
  · rfl

/-- A performed call adds itself to the log and to the calls of its thread, and starts no thread. -/
theorem log_of_step_call {i : ℕ} {path : List Branch} {env : ε}
    (h : sys.step (.call i path env) w = some w') :
    ∃ op, w'.log = w.log ++ [⟨w.now, i, ⟨path, op, (sys.handle env w.now op w.shared).1⟩⟩] ∧
      w'.events i = w.events i ++ [⟨path, op, (sys.handle env w.now op w.shared).1⟩] ∧
      w'.labels = w.labels := by
  obtain ⟨l, m, op, k, hm, -, rfl⟩ := step_call h
  refine ⟨op, rfl, ?_, map_fst_set hm⟩
  rw [World.events, eventsOf_concat, if_pos rfl, World.events]

/-- Nothing has been performed and nothing has been started. -/
theorem Coherent.init (s : σ) : sys.Coherent (World.init s) :=
  ⟨by simp [World.init], by simp [World.init], by simp [World.init], by simp [World.init]⟩

/-- A started thread has performed nothing, so it stands where its program starts. -/
theorem Coherent.spawn (h : sys.Coherent w) (l : L) :
    sys.Coherent { w with threads := w.threads ++ [(l, sys.body l)] } := by
  refine ⟨h.time_le, h.sorted, fun e he => ?_, fun i l' m hm => ?_⟩
  · have := h.thread_lt e he
    simp only [List.length_append, List.length_singleton]
    omega
  · rw [List.getElem?_append] at hm
    split at hm
    · exact h.trace i l' m hm
    · rename_i hi
      have heq := List.mem_singleton.mp (List.mem_of_getElem? hm)
      obtain ⟨rfl, rfl⟩ := Prod.mk.inj heq
      refine ⟨_, ?_, .inl rfl⟩
      change Trace (sys.body l') (w.events i) (sys.body l')
      rw [h.events_eq_nil (by omega)]
      exact .nil _

/-- A thread may take any program that its calls so far lead to, or be abandoned. -/
theorem Coherent.replace (h : sys.Coherent w) {i : ℕ} {l : L} {m : Mono Op Res Unit}
    (hm : ∃ m', Trace (sys.body l) (w.events i) m' ∧ (m = m' ∨ m = .done .error)) :
    sys.Coherent { w with threads := w.threads.set i (l, m) } := by
  refine ⟨h.time_le, h.sorted, by simpa only [List.length_set] using h.thread_lt,
    fun j l' m' hm' => ?_⟩
  rcases getElem?_set_cases hm' with ⟨rfl, heq⟩ | ⟨-, hold⟩
  · obtain ⟨rfl, rfl⟩ := Prod.mk.inj heq
    exact hm
  · exact h.trace j l' m' hold

/-- A performed call is the last of the log and extends the trace of its thread alone. -/
theorem Coherent.call (h : sys.Coherent w) {i : ℕ} {l : L} {m m' : Mono Op Res Unit}
    {ev : Event Op Res} (s : σ) (hm : w.threads[i]? = some (l, m))
    (htr : Trace (sys.body l) (w.events i ++ [ev]) m') :
    sys.Coherent { w with
      shared := s, threads := w.threads.set i (l, m'), log := w.log ++ [⟨w.now, i, ev⟩] } := by
  refine ⟨fun e he => ?_, ?_, fun e he => ?_, fun j l' m₁ hm₁ => ?_⟩
  · rcases List.mem_append.mp he with hold | hnew
    · exact h.time_le e hold
    · obtain rfl := List.mem_singleton.mp hnew
      exact Nat.le_refl _
  · apply List.pairwise_append.mpr
    refine ⟨h.sorted, by simp, fun e he e' he' => ?_⟩
    obtain rfl := List.mem_singleton.mp he'
    exact h.time_le e he
  · rw [List.length_set]
    rcases List.mem_append.mp he with hold | hnew
    · exact h.thread_lt e hold
    · obtain rfl := List.mem_singleton.mp hnew
      exact (List.getElem?_eq_some_iff.mp hm).1
  · simp only [World.events, eventsOf_concat]
    rcases getElem?_set_cases hm₁ with ⟨rfl, heq⟩ | ⟨hne, hold⟩
    · obtain ⟨rfl, rfl⟩ := Prod.mk.inj heq
      rw [if_pos rfl]
      exact ⟨_, htr, .inl rfl⟩
    · rw [if_neg hne]
      exact h.trace j l' m₁ hold

/-- Every action keeps the log in step with the threads. -/
theorem Coherent.step {a : Action S ε} (h : sys.Coherent w) (hstep : sys.step a w = some w') :
    sys.Coherent w' := by
  cases a with
  | tick d =>
    obtain rfl := Option.some.inj hstep
    exact ⟨fun e he => Nat.le_trans (h.time_le e he) (Nat.le_add_right _ _), h.sorted,
      h.thread_lt, h.trace⟩
  | spawn s =>
    obtain ⟨l, -, rfl⟩ := step_spawn hstep
    exact h.spawn l
  | call i path env =>
    obtain ⟨l, m, op, k, hm, hnext, rfl⟩ := step_call hstep
    obtain ⟨m₁, htr, rfl | rfl⟩ := h.trace i l m hm
    · exact h.call _ hm (htr.snoc_call hnext _)
    · simp [Mono.next] at hnext
  | join i path =>
    obtain ⟨l, m, m₁, hm, hjoin, rfl⟩ := step_join hstep
    obtain ⟨m₂, htr, rfl | rfl⟩ := h.trace i l m hm
    · exact h.replace ⟨_, htr.snoc_join hjoin, .inl rfl⟩
    · simp [Mono.join] at hjoin
  | cancel i =>
    obtain ⟨l, m, hm, rfl⟩ := step_cancel hstep
    obtain ⟨m₁, htr, -⟩ := h.trace i l m hm
    exact h.replace ⟨m₁, htr, .inr rfl⟩

/-- The calls of every thread are a trace of its program, in every run. -/
theorem Run.coherent {s : σ} (h : sys.Run P (World.init s) w) : sys.Coherent w := by
  induction h with
  | refl => exact .init s
  | step _ _ hstep ih => exact ih.step hstep

/-- A property of the clock, the shared state, the labels and the log that time, new threads
and every call preserve holds in every run. A call may use that the calls of its thread so far,
this one included, are a trace of the thread's program. -/
theorem Run.log_rule {s₀ : σ} {I : ℕ → σ → List L → List (Entry Op Res) → Prop}
    (h : sys.Run P (World.init s₀) w) (hinit : I 0 s₀ [] [])
    (htick : ∀ now s ls log d, I now s ls log → I (now + d) s ls log)
    (hspawn : ∀ now s ls log st l, P (.spawn st) → sys.spawn log st = some l →
      I now s ls log → I now s (ls ++ [l]) log)
    (hcall : ∀ now s ls log i path env op l m', P (.call i path env) → I now s ls log →
      (∀ e ∈ log, e.time ≤ now) → ls[i]? = some l →
      Trace (sys.body l) (eventsOf i log ++ [⟨path, op, (sys.handle env now op s).1⟩]) m' →
      I now (sys.handle env now op s).2 ls
        (log ++ [⟨now, i, ⟨path, op, (sys.handle env now op s).1⟩⟩])) :
    I w.now w.shared w.labels w.log := by
  induction h with
  | refl => exact hinit
  | @step w w' a hrun ha hstep ih =>
    cases a with
    | tick d =>
      obtain rfl := Option.some.inj hstep
      exact htick _ _ _ _ d ih
    | spawn st =>
      obtain ⟨l, hl, rfl⟩ := step_spawn hstep
      simpa [World.labels] using hspawn _ _ _ _ st l ha hl ih
    | call i path env =>
      obtain ⟨l, m, op, k, hm, hnext, rfl⟩ := step_call hstep
      obtain ⟨m₁, htr, rfl | rfl⟩ := hrun.coherent.trace i l m hm
      · have := hcall _ _ _ _ i path env op l _ ha ih hrun.coherent.time_le
          (by simp [World.labels, hm]) (htr.snoc_call hnext _)
        simpa only [World.labels, map_fst_set hm] using this
      · simp [Mono.next] at hnext
    | join i path =>
      obtain ⟨l, m, m₁, hm, -, rfl⟩ := step_join hstep
      simpa only [World.labels, map_fst_set hm] using ih
    | cancel i =>
      obtain ⟨l, m, hm, rfl⟩ := step_cancel hstep
      simpa only [World.labels, map_fst_set hm] using ih

/-- Every logged reply is an answer of the shared state to that call. -/
theorem Run.replies {s₀ : σ} (h : sys.Run P (World.init s₀) w) :
    ∀ e ∈ w.log, ∃ i path env s, P (.call i path env) ∧
      e.event.reply = (sys.handle env e.time e.event.op s).1 := by
  refine h.log_rule (I := fun _ _ _ log => ∀ e ∈ log, ∃ i path env s, P (.call i path env) ∧
    e.event.reply = (sys.handle env e.time e.event.op s).1) (by simp)
    (fun _ _ _ _ _ ih => ih) (fun _ _ _ _ _ _ _ _ ih => ih) ?_
  intro now s ls log i path env op l m' ha ih _ _ _ e he
  rcases List.mem_append.mp he with hold | hnew
  · exact ih e hold
  · obtain rfl := List.mem_singleton.mp hnew
    exact ⟨i, path, env, s, ha, rfl⟩

/-- A run extends the log, and what no call of the extension affects stays as it is. -/
theorem Run.frame {β : Type} (h : sys.Run P w₀ w) (f : σ → β) (Quiet : Op → Prop)
    (hquiet : ∀ env now op s, Quiet op → f (sys.handle env now op s).2 = f s) :
    ∃ new, w.log = w₀.log ++ new ∧
      ((∀ e ∈ new, Quiet e.event.op) → f w.shared = f w₀.shared) := by
  induction h with
  | refl => exact ⟨[], by simp, fun _ => rfl⟩
  | @step w w' a hrun ha hstep ih =>
    obtain ⟨new, hlog, hshared⟩ := ih
    cases a with
    | tick d =>
      obtain rfl := Option.some.inj hstep
      exact ⟨new, hlog, hshared⟩
    | spawn st =>
      obtain ⟨l, -, rfl⟩ := step_spawn hstep
      exact ⟨new, hlog, hshared⟩
    | call i path env =>
      obtain ⟨l, m, op, k, -, -, rfl⟩ := step_call hstep
      refine ⟨new ++ [⟨w.now, i, ⟨path, op, (sys.handle env w.now op w.shared).1⟩⟩],
        by simp only [hlog, List.append_assoc], fun hall => ?_⟩
      obtain ⟨hnew, hlast⟩ := List.forall_mem_append.mp hall
      exact (hquiet env w.now op w.shared (hlast _ (List.mem_singleton_self _))).trans (hshared hnew)
    | join i path =>
      obtain ⟨l, m, m₁, -, -, rfl⟩ := step_join hstep
      exact ⟨new, hlog, hshared⟩
    | cancel i =>
      obtain ⟨l, m, -, rfl⟩ := step_cancel hstep
      exact ⟨new, hlog, hshared⟩

/-- A run of a system with the same programs is a run of this one, where this one can give the replies
to all of its calls. -/
theorem Run.simulated_on {ε' : Type} {sys' : System Op Res σ ε' L S} {P' : Action S ε' → Prop}
    (Good : Op → Prop) (h : sys'.Run P' w₀ w) (hlog : ∀ e ∈ w.log, Good e.event.op)
    (hbody : sys'.body = sys.body) (hspawn : sys'.spawn = sys.spawn)
    (hhandle : ∀ env' now op s, Good op →
      ∃ env, sys'.handle env' now op s = sys.handle env now op s) :
    sys.Run (fun _ => True) w₀ w := by
  induction h with
  | refl => exact .refl
  | @step w w' a hrun ha hstep ih =>
    cases a with
    | tick d =>
      refine (ih ?_).step (a := .tick d) trivial hstep
      obtain rfl := Option.some.inj hstep
      exact hlog
    | spawn st =>
      refine (ih ?_).step (a := .spawn st) trivial ?_
      · obtain ⟨l, -, rfl⟩ := step_spawn hstep
        exact hlog
      · simpa only [System.step, hbody, hspawn] using hstep
    | call i path env' =>
      obtain ⟨l, m, op, k, hm, hnext, rfl⟩ := step_call hstep
      obtain ⟨hold, hnew⟩ := List.forall_mem_append.mp hlog
      obtain ⟨env, henv⟩ := hhandle env' w.now op w.shared (hnew _ (List.mem_singleton_self _))
      refine (ih hold).step (a := .call i path env) trivial ?_
      simp only [System.step, hm, hnext, Option.bind_some, Option.map_some, henv]
    | join i path =>
      refine (ih ?_).step (a := .join i path) trivial hstep
      obtain ⟨l, m, m₁, -, -, rfl⟩ := step_join hstep
      exact hlog
    | cancel i =>
      refine (ih ?_).step (a := .cancel i) trivial hstep
      obtain ⟨l, m, -, rfl⟩ := step_cancel hstep
      exact hlog

/-- Every run of a system with the same programs is a run of this one, where this one can give all
of its replies. -/
theorem Run.simulated {ε' : Type} {sys' : System Op Res σ ε' L S} {P' : Action S ε' → Prop}
    (h : sys'.Run P' w₀ w) (hbody : sys'.body = sys.body) (hspawn : sys'.spawn = sys.spawn)
    (hhandle : ∀ env' now op s, ∃ env, sys'.handle env' now op s = sys.handle env now op s) :
    sys.Run (fun _ => True) w₀ w :=
  h.simulated_on (fun _ => True) (fun _ _ => trivial) hbody hspawn
    fun env' now op s _ => hhandle env' now op s

end System

end ApiFirewall.Reactive
