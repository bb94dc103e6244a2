import ApiFirewall.Batching.Batches
import Mathlib.Data.Int.Order.Basic

/-!
# The audit indexer

The indexer buffers the events that it fetches and hands them to the search engine in bulk calls:
when the buffer is full, when no event has come for a while, and when the loop is left by an
exception or a cancellation. The buffer is cleared when a bulk call ends, however it ends. A step
takes the outcome that the indexer waits for and yields the bulk calls that it issues.

Whatever the outcomes are, the indexer sends its events in batches of bounded size.
-/

namespace ApiFirewall.Indexer

open ApiFirewall.Batching

/-- What the indexer waits for: the next event, the bulk call of the loop, or the bulk call on the
way out; or it has ended. -/
inductive Position where
  | polling
  | flushing
  | closing
  | stopped
  deriving DecidableEq, Repr

/-- How a bulk call ends; rejected events and exceptions are logged, a cancellation is not caught. -/
inductive BulkOutcome where
  | indexed
  | rejected
  | raised
  | cancelled
  deriving DecidableEq, Repr

/-- What the indexer learns: an event, that no event has come in time, that fetching was cancelled
or raised any other exception, or how its bulk call has ended. -/
inductive Input (α : Type) where
  | message (event : α)
  | timeout
  | raised
  | bulk (outcome : BulkOutcome)
  deriving DecidableEq, Repr

/-- The state of the loop. -/
structure AuditIndexer (α : Type) where
  position : Position
  buffer : List α
  deriving DecidableEq, Repr

namespace AuditIndexer

variable {α : Type}

/-- Connected, with nothing buffered. -/
def start : AuditIndexer α := ⟨.polling, []⟩

/-- Issue a bulk call and wait for it, or go on at once if there is nothing to send. -/
def flush (waiting onward : Position) : List α → AuditIndexer α × List (List α)
  | [] => (⟨onward, []⟩, [])
  | buffer => (⟨waiting, buffer⟩, [buffer])

/-- One step, with the bulk calls that it issues; `none` where the indexer does not wait for that. -/
def step (batchSize : ℤ) : AuditIndexer α → Input α → Option (AuditIndexer α × List (List α))
  | ⟨.polling, buffer⟩, .message event =>
    let buffer := buffer ++ [event]
    if batchSize ≤ buffer.length then some (flush .flushing .polling buffer)
    else some (⟨.polling, buffer⟩, [])
  | ⟨.polling, buffer⟩, .timeout => some (flush .flushing .polling buffer)
  | ⟨.polling, buffer⟩, .raised => some (flush .closing .stopped buffer)
  -- the buffer is cleared before the cancellation leaves the loop
  | ⟨.flushing, _⟩, .bulk .cancelled => some (flush .closing .stopped [])
  | ⟨.flushing, _⟩, .bulk _ => some (⟨.polling, []⟩, [])
  | ⟨.closing, _⟩, .bulk _ => some (⟨.stopped, []⟩, [])
  | _, _ => none

/-- A sequence of steps, with all bulk calls that they issue. -/
def exec (batchSize : ℤ) : AuditIndexer α → List (Input α) →
    Option (AuditIndexer α × List (List α))
  | s, [] => some (s, [])
  | s, input :: inputs => do
    let (s', bulks) ← step batchSize s input
    let (s'', bulks') ← exec batchSize s' inputs
    return (s'', bulks ++ bulks')

/-- A sequence of steps is one step and then the others. -/
theorem exec_cons {batchSize : ℤ} {s s' : AuditIndexer α} {input : Input α}
    {inputs : List (Input α)} {bulks : List (List α)}
    (h : exec batchSize s (input :: inputs) = some (s', bulks)) :
    ∃ s₁ bulks₁ bulks₂, step batchSize s input = some (s₁, bulks₁) ∧
      exec batchSize s₁ inputs = some (s', bulks₂) ∧ bulks = bulks₁ ++ bulks₂ := by
  obtain ⟨⟨s₁, bulks₁⟩, hstep, h⟩ := Option.bind_eq_some_iff.mp h
  obtain ⟨⟨s₂, bulks₂⟩, hrest, h⟩ := Option.bind_eq_some_iff.mp h
  obtain ⟨rfl, rfl⟩ := Prod.mk.inj (Option.some.inj h)
  exact ⟨s₁, bulks₁, bulks₂, hstep, hrest, rfl⟩

/-- The indexer waits for such an outcome. -/
def Awaits : Position → Input α → Prop
  | .polling, .message _ => True
  | .polling, .timeout => True
  | .polling, .raised => True
  | .flushing, .bulk _ => True
  | .closing, .bulk _ => True
  | _, _ => False

/-- The indexer takes every outcome that it waits for. -/
theorem step_isSome_iff {batchSize : ℤ} {s : AuditIndexer α} {input : Input α} :
    (step batchSize s input).isSome = true ↔ Awaits s.position input := by
  obtain ⟨position, buffer⟩ := s
  cases position with
  | polling =>
    cases input with
    | message event =>
      simp only [step, Awaits, iff_true]
      split <;> rfl
    | _ => simp [step, Awaits]
  | flushing =>
    cases input with
    | bulk outcome => cases outcome <;> simp [step, Awaits]
    | _ => simp [step, Awaits]
  | closing => cases input <;> simp [step, Awaits]
  | stopped => cases input <;> simp [step, Awaits]

/-- The events that were fetched. -/
def messages (inputs : List (Input α)) : List α :=
  inputs.filterMap fun
    | .message event => some event
    | _ => none

@[simp] theorem messages_nil : messages ([] : List (Input α)) = [] := rfl

@[simp] theorem messages_message (event : α) (inputs : List (Input α)) :
    messages (.message event :: inputs) = event :: messages inputs := rfl

@[simp] theorem messages_timeout (inputs : List (Input α)) :
    messages (.timeout :: inputs) = messages inputs := rfl

@[simp] theorem messages_raised (inputs : List (Input α)) :
    messages (.raised :: inputs) = messages inputs := rfl

@[simp] theorem messages_bulk (outcome : BulkOutcome) (inputs : List (Input α)) :
    messages (.bulk outcome :: inputs) = messages inputs := rfl

/-- The events that wait for a bulk call; those of a running bulk call have been sent. -/
def unsent (s : AuditIndexer α) : List α :=
  match s.position with
  | .polling => s.buffer
  | _ => []

/-- The indexer has issued these batches, and its buffer holds what waits; on its way out nothing
waits, and once it has ended nothing is left. -/
structure Represents {size : ℕ} (b : Batches α size) (s : AuditIndexer α)
    (bulks : List (List α)) : Prop where
  sent : b.sent = bulks
  unsent : b.unsent = s.unsent
  stopped : s.position = .stopped → s.buffer = []

variable {batchSize : ℤ} {size : ℕ} {s s' : AuditIndexer α} {b : Batches α size}
  {bulks issued : List (List α)}

/-- Flushing the buffer of a polling indexer sends what waits. -/
theorem Represents.flush {buffer : List α} {waiting onward : Position}
    (h : Represents b ⟨.polling, buffer⟩ bulks) (hwaiting : waiting = .flushing ∨ waiting = .closing) :
    Represents b.flush (AuditIndexer.flush waiting onward buffer).1
      (bulks ++ (AuditIndexer.flush waiting onward buffer).2) := by
  have hunsent : b.unsent = buffer := h.unsent
  cases buffer with
  | nil =>
    rw [Batches.flush_of_nil hunsent]
    refine ⟨by simpa [AuditIndexer.flush] using h.sent, ?_, fun _ => rfl⟩
    rw [hunsent]
    cases onward <;> rfl
  | cons event rest =>
    obtain ⟨hsent, hnil⟩ := Batches.flush_of_ne_nil (b := b) (by simp [hunsent])
    refine ⟨by rw [hsent, h.sent, hunsent]; rfl, ?_, ?_⟩
    · rw [hnil]
      rcases hwaiting with rfl | rfl <;> rfl
    · rcases hwaiting with rfl | rfl <;> simp [AuditIndexer.flush]

/-- A fetched event is pushed: it waits, or its batch is full and sent. Batches of less than one
event hold one. -/
theorem Represents.push {buffer : List α} {event : α} (hsize : (size : ℤ) = max 1 batchSize)
    (h : Represents b ⟨.polling, buffer⟩ bulks)
    (hstep : step batchSize ⟨.polling, buffer⟩ (.message event) = some (s', issued)) :
    Represents (b.push event) s' (bulks ++ issued) := by
  have hunsent : b.unsent = buffer := h.unsent
  have hlength : 1 ≤ (buffer ++ [event]).length := by simp
  simp only [AuditIndexer.step] at hstep
  split at hstep
  · rename_i hfull
    obtain ⟨hsent, hnil⟩ := Batches.push_of_le (b := b) (a := event) (by rw [hunsent]; omega)
    have hflush : AuditIndexer.flush .flushing .polling (buffer ++ [event]) =
        (⟨.flushing, buffer ++ [event]⟩, [buffer ++ [event]]) := by
      cases buffer <;> rfl
    rw [hflush] at hstep
    obtain ⟨rfl, rfl⟩ := Prod.mk.inj (Option.some.inj hstep)
    exact ⟨by rw [hsent, h.sent, hunsent], hnil, by simp⟩
  · rename_i hroom
    obtain ⟨hsent, hwaits⟩ := Batches.push_of_lt (b := b) (a := event) (by rw [hunsent]; omega)
    obtain ⟨rfl, rfl⟩ := Prod.mk.inj (Option.some.inj hstep)
    exact ⟨by rw [hsent, h.sent, List.append_nil], by rw [hwaits, hunsent]; rfl, by simp⟩

/-- One step pushes the event that it fetches, sends what waits, or does nothing. -/
theorem Represents.step {input : Input α} (hsize : (size : ℤ) = max 1 batchSize)
    (h : Represents b s bulks) (hstep : step batchSize s input = some (s', issued)) :
    ∃ b' : Batches α size, Represents b' s' (bulks ++ issued) ∧
      b'.contents = b.contents ++ messages [input] := by
  obtain ⟨position, buffer⟩ := s
  have hcleared : ∀ {onward : Position}, position = .flushing ∨ position = .closing →
      Represents b ⟨onward, []⟩ (bulks ++ []) := by
    intro onward hposition
    refine ⟨by simpa using h.sent, ?_, fun _ => rfl⟩
    rw [h.unsent]
    rcases hposition with rfl | rfl <;> cases onward <;> rfl
  cases position with
  | polling =>
    cases input with
    | message event => exact ⟨b.push event, h.push hsize hstep, by simp⟩
    | timeout =>
      refine ⟨b.flush, ?_, by simp⟩
      obtain ⟨rfl, rfl⟩ := Prod.mk.inj (Option.some.inj hstep)
      exact h.flush (.inl rfl)
    | raised =>
      refine ⟨b.flush, ?_, by simp⟩
      obtain ⟨rfl, rfl⟩ := Prod.mk.inj (Option.some.inj hstep)
      exact h.flush (.inr rfl)
    | bulk outcome => simp [AuditIndexer.step] at hstep
  | flushing =>
    cases input with
    | bulk outcome =>
      refine ⟨b, ?_, by simp⟩
      cases outcome <;> obtain ⟨rfl, rfl⟩ := Prod.mk.inj (Option.some.inj hstep) <;>
        exact hcleared (.inl rfl)
    | _ => simp [AuditIndexer.step] at hstep
  | closing =>
    cases input with
    | bulk outcome =>
      refine ⟨b, ?_, by simp⟩
      obtain ⟨rfl, rfl⟩ := Prod.mk.inj (Option.some.inj hstep)
      exact hcleared (.inr rfl)
    | _ => simp [AuditIndexer.step] at hstep
  | stopped => simp [AuditIndexer.step] at hstep

/-- Every sequence of steps sends batches, and what was fetched is what was sent and what waits. -/
theorem Represents.exec {inputs : List (Input α)} (hsize : (size : ℤ) = max 1 batchSize)
    (h : Represents b s bulks) (hexec : exec batchSize s inputs = some (s', issued)) :
    ∃ b' : Batches α size, Represents b' s' (bulks ++ issued) ∧
      b'.contents = b.contents ++ messages inputs := by
  induction inputs generalizing s b bulks issued with
  | nil =>
    obtain ⟨rfl, rfl⟩ := Prod.mk.inj (Option.some.inj hexec)
    exact ⟨b, by simpa using h, by simp⟩
  | cons input inputs ih =>
    obtain ⟨s₁, bulks₁, bulks₂, hstep, hrest, rfl⟩ := exec_cons hexec
    obtain ⟨b₁, h₁, hcontents₁⟩ := h.step hsize hstep
    obtain ⟨b₂, h₂, hcontents₂⟩ := ih h₁ hrest
    refine ⟨b₂, by simpa only [List.append_assoc] using h₂, ?_⟩
    rw [hcontents₂, hcontents₁, List.append_assoc]
    congr 1
    cases input <;> rfl

/-- One step sends what waited, and what it has fetched, or leaves it waiting. -/
theorem Represents.conserves {input : Input α} (hsize : (size : ℤ) = max 1 batchSize)
    (h : Represents b s bulks) (hstep : AuditIndexer.step batchSize s input = some (s', issued)) :
    issued.flatten ++ s'.unsent = s.unsent ++ messages [input] := by
  obtain ⟨b', h', hcontents⟩ := h.step hsize hstep
  rw [Batches.contents, Batches.contents, h'.sent, h'.unsent, h.sent, h.unsent,
    List.flatten_append, List.append_assoc, List.append_assoc] at hcontents
  exact List.append_cancel_left hcontents

/-- The indexer leaves its loop, or has left it. -/
def Leaving (s : AuditIndexer α) : Prop := s.position = .closing ∨ s.position = .stopped

/-- The outcome is an exception that the loop does not catch. -/
def Ends (input : Input α) : Prop := input = .raised ∨ input = .bulk .cancelled

/-- Such an outcome makes the indexer leave its loop for good. -/
theorem Leaving.of_step {input : Input α}
    (hstep : AuditIndexer.step batchSize s input = some (s', issued))
    (h : s.Leaving ∨ Ends input) : s'.Leaving := by
  obtain ⟨position, buffer⟩ := s
  cases position with
  | polling =>
    rcases h with hleaving | rfl | rfl
    · simp [Leaving] at hleaving
    · obtain ⟨rfl, -⟩ := Prod.mk.inj (Option.some.inj hstep)
      cases buffer with
      | nil => exact .inr rfl
      | cons event rest => exact .inl rfl
    · simp [AuditIndexer.step] at hstep
  | flushing =>
    rcases h with hleaving | rfl | rfl
    · simp [Leaving] at hleaving
    · simp [AuditIndexer.step] at hstep
    · obtain ⟨rfl, -⟩ := Prod.mk.inj (Option.some.inj hstep)
      exact .inr rfl
  | closing =>
    cases input with
    | bulk outcome =>
      obtain ⟨rfl, -⟩ := Prod.mk.inj (Option.some.inj hstep)
      exact .inr rfl
    | _ => simp [AuditIndexer.step] at hstep
  | stopped => simp [AuditIndexer.step] at hstep

/-- Once fetching has ended with an exception, the indexer has left its loop or waits for its last
bulk call. -/
theorem Leaving.of_exec {inputs : List (Input α)}
    (hexec : AuditIndexer.exec batchSize s inputs = some (s', issued))
    (h : s.Leaving ∨ .raised ∈ inputs) : s'.Leaving := by
  induction inputs generalizing s issued with
  | nil =>
    obtain ⟨rfl, -⟩ := Prod.mk.inj (Option.some.inj hexec)
    simpa using h
  | cons input inputs ih =>
    obtain ⟨s₁, bulks₁, bulks₂, hstep, hrest, rfl⟩ := exec_cons hexec
    refine ih hrest ?_
    rcases h with hleaving | hraised
    · exact .inl (.of_step hstep (.inl hleaving))
    · exact (List.mem_cons.mp hraised).imp
        (fun hraised => .of_step hstep (.inr (.inl hraised.symm))) id

/-- Any other outcome keeps the indexer in its loop. -/
theorem not_leaving_of_step {input : Input α}
    (hstep : AuditIndexer.step batchSize s input = some (s', issued)) (h : ¬ s.Leaving)
    (hends : ¬ Ends input) : ¬ s'.Leaving := by
  have hflush : ∀ buffer : List α, ¬ (AuditIndexer.flush .flushing .polling buffer).1.Leaving := by
    intro buffer
    cases buffer <;> simp [AuditIndexer.flush, Leaving]
  obtain ⟨position, buffer⟩ := s
  cases position with
  | polling =>
    cases input with
    | message event =>
      simp only [AuditIndexer.step] at hstep
      split at hstep <;> obtain ⟨rfl, -⟩ := Prod.mk.inj (Option.some.inj hstep)
      · exact hflush _
      · simp [Leaving]
    | timeout =>
      obtain ⟨rfl, -⟩ := Prod.mk.inj (Option.some.inj hstep)
      exact hflush _
    | raised => exact absurd (.inl rfl) hends
    | bulk outcome => simp [AuditIndexer.step] at hstep
  | flushing =>
    cases input with
    | bulk outcome =>
      cases outcome with
      | cancelled => exact absurd (.inr rfl) hends
      | _ =>
        obtain ⟨rfl, -⟩ := Prod.mk.inj (Option.some.inj hstep)
        simp [Leaving]
    | _ => simp [AuditIndexer.step] at hstep
  | closing => exact absurd (.inl rfl) h
  | stopped => exact absurd (.inr rfl) h

/-- Where the loop is being left, or has been left, nothing more is fetched. -/
theorem messages_of_leaving {inputs : List (Input α)}
    (hexec : AuditIndexer.exec batchSize s inputs = some (s', issued)) (h : s.Leaving) :
    messages inputs = [] := by
  induction inputs generalizing s issued with
  | nil => rfl
  | cons input inputs ih =>
    obtain ⟨s₁, bulks₁, bulks₂, hstep, hrest, rfl⟩ := exec_cons hexec
    have hlater := ih hrest (.of_step hstep (.inl h))
    obtain ⟨position, buffer⟩ := s
    cases input with
    | message event =>
      rcases h with hposition | hposition <;> obtain rfl : position = _ := hposition <;>
        simp [AuditIndexer.step] at hstep
    | _ => exact hlater

/-- An indexer in its loop is still there after an outcome that does not end it. -/
theorem loop_of_not_ends {input : Input α} {inputs : List (Input α)}
    (hexec : AuditIndexer.exec batchSize s (input :: inputs) = some (s', issued)) (h : ¬ s.Leaving)
    (hends : ¬ Ends input) :
    ∃ s₁ later, ¬ s₁.Leaving ∧ AuditIndexer.exec batchSize s₁ inputs = some (s', later) := by
  obtain ⟨s₁, bulks₁, bulks₂, hstep, hrest, -⟩ := exec_cons hexec
  exact ⟨s₁, bulks₂, not_leaving_of_step hstep h hends, hrest⟩

/-- Nothing is fetched after an outcome that ends the loop. -/
theorem messages_of_ends {input : Input α} {inputs : List (Input α)}
    (hexec : AuditIndexer.exec batchSize s (input :: inputs) = some (s', issued))
    (hends : Ends input) : messages inputs = [] := by
  obtain ⟨s₁, bulks₁, bulks₂, hstep, hrest, -⟩ := exec_cons hexec
  exact messages_of_leaving hrest (.of_step hstep (.inr hends))

/-- Nothing has been fetched and nothing sent. -/
theorem represents_start (h : 0 < size) :
    Represents (Batches.empty h : Batches α size) start [] := ⟨rfl, rfl, fun _ => rfl⟩

/-- Whatever the outcomes are, what was fetched is what was sent and what waits, and once the indexer
has ended nothing is left in its buffer. -/
theorem conserved_of_exec {inputs : List (Input α)}
    (hexec : AuditIndexer.exec batchSize start inputs = some (s, bulks)) :
    bulks.flatten ++ s.unsent = messages inputs ∧ (s.position = .stopped → s.buffer = []) ∧
      ∀ bulk ∈ bulks, 1 ≤ bulk.length ∧ (bulk.length : ℤ) ≤ max 1 batchSize := by
  obtain ⟨size, hsize⟩ := Int.eq_ofNat_of_zero_le (show 0 ≤ max 1 batchSize by omega)
  have hpos : 0 < size := by omega
  have hstart := represents_start (α := α) hpos
  obtain ⟨b, hb, hcontents⟩ := hstart.exec hsize.symm hexec
  rw [Batches.contents_empty, List.nil_append, Batches.contents, hb.sent, hb.unsent,
    List.nil_append] at hcontents
  refine ⟨hcontents, hb.stopped, fun bulk hbulk => ?_⟩
  have := b.sent_bounds bulk (by rw [hb.sent]; exact hbulk)
  omega

end AuditIndexer

end ApiFirewall.Indexer
