import ApiFirewall.Deployment
import ApiFirewall.Gateway.RequestCounters
import ApiFirewall.KeyValue.WindowCounter

/-!
# The request counters over whole runs

Both window counters of a request increment the same key. Whichever is answered 1 sets the time to
live, so the present life of a key lasts ten seconds or a minute, depending on the counter that
began it. The log of a run determines the answered increments of every key, and in every run in
which the store answers they are lives of that key.
-/

namespace ApiFirewall.Guarantees

open ApiFirewall.Gateway ApiFirewall.Gateway.ZeroTrustFilter ApiFirewall.Gateway.RedisStateService
open ApiFirewall.KeyValue ApiFirewall.Reactive Deployment

variable {K : Type}

/-- The answered increment of a key that an entry records, with the thread and the counter that
made it. -/
def hitOf (key : String) (e : Entry (Op K) Res) : Option (Hit (ℕ × Branch)) :=
  match e.event with
  | ⟨[branch], .redis (.increment k), .value count⟩ =>
    if k = key then some ⟨e.time, (e.thread, branch), count⟩ else none
  | _ => none

/-- The answered increments of a key. -/
def hits (key : String) (log : List (Entry (Op K) Res)) : List (Hit (ℕ × Branch)) :=
  log.filterMap (hitOf key)

/-- The time to live that a caller sets. -/
def lifeOf (caller : ℕ × Branch) : ℕ := windowLength caller.2

/-- Windows are not empty. -/
theorem windowLength_pos (branch : Branch) : 0 < windowLength branch := by
  cases branch <;> decide

/-- One more entry adds its increment. -/
theorem hits_concat (key : String) (log : List (Entry (Op K) Res)) (e : Entry (Op K) Res) :
    hits key (log ++ [e]) = hits key log ++ (hitOf key e).toList := by
  unfold hits
  rw [List.filterMap_append, List.filterMap_cons]
  cases hitOf key e <;> rfl

/-- Only an increment of the key is one. -/
theorem hitOf_eq_none {key : String} {e : Entry (Op K) Res}
    (h : e.event.op ≠ .redis (.increment key)) : hitOf key e = none := by
  obtain ⟨time, thread, path, op, reply⟩ := e
  unfold hitOf
  split
  · rename_i branch k count heq
    simp only [Event.mk.injEq] at heq
    rw [if_neg]
    rintro rfl
    exact h heq.2.1
  · rfl

/-- What an answered increment records. -/
theorem hitOf_eq_some {key : String} {e : Entry (Op K) Res} {h : Hit (ℕ × Branch)} :
    hitOf key e = some h ↔ e.time = h.time ∧ e.thread = h.caller.1 ∧
      e.event = ⟨[h.caller.2], .redis (.increment key), .value h.count⟩ := by
  obtain ⟨time, thread, event⟩ := e
  obtain ⟨time', ⟨thread', branch'⟩, count'⟩ := h
  constructor
  · intro heq
    unfold hitOf at heq
    split at heq
    · rename_i branch k count hevent
      split at heq
      · rename_i hk
        subst hk
        simp only [Option.some.injEq, Hit.mk.injEq, Prod.mk.injEq] at heq
        obtain ⟨rfl, ⟨rfl, rfl⟩, rfl⟩ := heq
        exact ⟨rfl, rfl, hevent⟩
      · simp at heq
    · simp at heq
  · rintro ⟨rfl, rfl, hevent⟩
    simp only at hevent
    subst hevent
    simp [hitOf]

/-- The calls of one counter of a thread. -/
def counterCalls (i : ℕ) (branch : Branch) (log : List (Entry (Op K) Res)) : Events K :=
  under branch (eventsOf i log)

/-- A new entry is a call of the counter that made it. -/
theorem counterCalls_concat_self (log : List (Entry (Op K) Res)) (now i : ℕ) (branch : Branch)
    (path : List Branch) (op : Op K) (r : Signal (Res op)) :
    counterCalls i branch (log ++ [⟨now, i, ⟨branch :: path, op, r⟩⟩]) =
      counterCalls i branch log ++ [⟨path, op, r⟩] := by
  simp [counterCalls, eventsOf_concat, under, Event.under?]

/-- The other counters make no call with it. -/
theorem counterCalls_concat_other {log : List (Entry (Op K) Res)} {now i j : ℕ}
    {branch branch' : Branch} (hne : (j, branch') ≠ (i, branch)) (path : List Branch) (op : Op K)
    (r : Signal (Res op)) :
    counterCalls j branch' (log ++ [⟨now, i, ⟨branch :: path, op, r⟩⟩]) =
      counterCalls j branch' log := by
  by_cases hij : i = j
  · subst hij
    have hbranch : branch ≠ branch' := by
      rintro rfl
      exact hne rfl
    simp [counterCalls, eventsOf_concat, under, Event.under?, hbranch]
  · simp [counterCalls, eventsOf_concat, hij]

/-- A counter whose last call is no increment of the key does not wait, and a call of another kind
makes no counter wait. -/
theorem counterCalls_of_concat {key : String} {log : List (Entry (Op K) Res)}
    {e : Entry (Op K) Res} (h : e.event.op ≠ .redis (.increment key)) {i : ℕ} {branch : Branch}
    {r : Signal ℤ}
    (hcalls : counterCalls i branch (log ++ [e]) = [.top (.redis (.increment key)) r]) :
    counterCalls i branch log = [.top (.redis (.increment key)) r] := by
  obtain ⟨now, j, path, op, reply⟩ := e
  cases path with
  | nil =>
    rw [← hcalls]
    by_cases hij : j = i <;> simp [counterCalls, eventsOf_concat, hij, under, Event.under?]
  | cons branch' path =>
    by_cases heq : (i, branch) = (j, branch')
    · obtain ⟨rfl, rfl⟩ := Prod.mk.inj heq
      rw [counterCalls_concat_self] at hcalls
      obtain ⟨-, hlast⟩ := List.append_inj' (hcalls.trans (List.nil_append _).symm) rfl
      have hop := congrArg Event.op (List.singleton_inj.mp hlast)
      exact absurd hop h
    · rwa [counterCalls_concat_other heq] at hcalls

/-- A counter that was answered 1 and has not set the time to live is the one that the key waits
for. -/
def WaitsFor (key : String) (log : List (Entry (Op K) Res)) (pending : Option (ℕ × Branch)) :
    Prop :=
  ∀ i branch, counterCalls i branch log = [.top (.redis (.increment key)) (.value 1)] →
    pending = some (i, branch)

/-- What a run keeps about a key. -/
def KeyCounts (key : String) (now : ℕ) (s : Store String) (log : List (Entry (Op K) Res)) : Prop :=
  ∃ pending, CounterInv lifeOf key now s (hits key log) pending ∧ WaitsFor key log pending

/-- Nothing has been counted. -/
theorem KeyCounts.empty (key : String) :
    KeyCounts key 0 Store.empty ([] : List (Entry (Op K) Res)) := by
  refine ⟨none, CounterInv.empty lifeOf key, fun i branch h => ?_⟩
  simp [counterCalls, eventsOf, under] at h

/-- A call that leaves the key's cell as it is, and does not increment the key. -/
theorem KeyCounts.other {key : String} {now : ℕ} {s s' : Store String}
    {log : List (Entry (Op K) Res)} (h : KeyCounts key now s log) {e : Entry (Op K) Res}
    (hop : e.event.op ≠ .redis (.increment key)) (hs : s' key = s key) :
    KeyCounts key now s' (log ++ [e]) := by
  obtain ⟨pending, hinv, hwaits⟩ := h
  refine ⟨pending, ?_, fun i branch hcalls => hwaits i branch (counterCalls_of_concat hop hcalls)⟩
  rw [hits_concat, hitOf_eq_none hop, Option.toList_none, List.append_nil]
  exact hinv.congr hs

section Commands

variable {key : String} {now i : ℕ} {branch : Branch} {s : Store String}
  {log : List (Entry (Op K) Res)}

/-- An answered increment of a counter that has made no call yet. -/
private theorem waits_of_increment {pending : Option (ℕ × Branch)} {r : Signal ℤ}
    (hwaits : WaitsFor key log pending) (hr : r ≠ .value 1) :
    WaitsFor key (log ++ [⟨now, i, ⟨[branch], .redis (.increment key), r⟩⟩]) pending := by
  intro j branch' hcalls
  by_cases heq : (j, branch') = (i, branch)
  · obtain ⟨rfl, rfl⟩ := Prod.mk.inj heq
    rw [counterCalls_concat_self] at hcalls
    obtain ⟨-, hlast⟩ := List.append_inj' (hcalls.trans (List.nil_append _).symm) rfl
    simp only [Event.top, List.cons.injEq, Event.mk.injEq, heq_eq_eq, true_and, and_true] at hlast
    exact absurd hlast hr
  · rw [counterCalls_concat_other heq] at hcalls
    exact hwaits j branch' hcalls

/-- An increment keeps the counts of its key. -/
theorem KeyCounts.increment (h : KeyCounts key now s log) :
    KeyCounts key now (s.exec now (.increment key)).2
      (log ++ [⟨now, i, ⟨[branch], .redis (.increment key), answer now s (.increment key)⟩⟩]) := by
  obtain ⟨pending, hinv, hwaits⟩ := h
  rcases hget : s.get now key with _ | ⟨value, e⟩
  · obtain ⟨rfl, hnew⟩ := hinv.increment_new hget (i, branch)
    have hreply : answer now s (.increment key) = .value 1 := by simp [answer, Store.exec, hget]
    refine ⟨some (i, branch), ?_, fun j branch' hcalls => ?_⟩
    · rw [hits_concat, hreply]
      simpa [hitOf] using hnew
    · by_cases heq : (j, branch') = (i, branch)
      · rw [heq]
      · rw [counterCalls_concat_other heq] at hcalls
        simpa using hwaits j branch' hcalls
  · obtain ⟨pre, g, hpre, hval⟩ := hinv.counted _ (Store.eq_some_of_get hget)
    obtain rfl : value = .int g.count := hval
    by_cases hmax : g.count < Store.maxCounter
    · obtain ⟨hne, hlive⟩ := hinv.increment_live hget hmax (i, branch)
      have hreply : answer now s (.increment key) = .value (g.count + 1) := by
        simp [answer, Store.exec, hget, hmax]
      refine ⟨pending, ?_, ?_⟩
      · rw [hits_concat, hreply]
        simpa [hitOf] using hlive
      · rw [hreply]
        exact waits_of_increment hwaits (by simpa using hne)
    · have hreply : answer now s (.increment key) = .error := by
        simp [answer, Store.exec, hget, hmax]
      have hstore : (s.exec now (.increment key)).2 = s := by simp [Store.exec, hget, hmax]
      refine ⟨pending, ?_, ?_⟩
      · rw [hits_concat, hreply, hstore]
        simpa [hitOf] using hinv
      · rw [hreply]
        exact waits_of_increment hwaits (by simp)

/-- The expiry that follows the answer 1 keeps the counts of its key. -/
theorem KeyCounts.expire (h : KeyCounts key now s log)
    (hcalls : counterCalls i branch log = [.top (.redis (.increment key)) (.value 1)])
    (r : Signal Bool) : KeyCounts key now (s.exec now (.expire key (windowLength branch))).2
      (log ++ [⟨now, i, ⟨[branch], .redis (.expire key (windowLength branch)), r⟩⟩]) := by
  obtain ⟨pending, hinv, hwaits⟩ := h
  obtain rfl := hwaits i branch hcalls
  refine ⟨none, ?_, fun j branch' hcalls' => ?_⟩
  · rw [hits_concat, hitOf_eq_none (by simp), Option.toList_none, List.append_nil]
    exact hinv.expire (windowLength_pos branch)
  · by_cases heq : (j, branch') = (i, branch)
    · obtain ⟨rfl, rfl⟩ := Prod.mk.inj heq
      rw [counterCalls_concat_self, hcalls] at hcalls'
      simp at hcalls'
    · rw [counterCalls_concat_other heq] at hcalls'
      have hsame := hwaits j branch' hcalls'
      exact absurd (Option.some.inj hsame).symm heq

end Commands

section Runs

variable [Field K] [LinearOrder K] [FloorRing K] {d : Deployment K} {w : State K}

/-- A command on a request counter counts. -/
private theorem counterCall_of_key {l : Label K} {cmd : Command String} {c p : String}
    (h : d.LabelCall l (.redis cmd)) (hkey : cmd.key = countKey c p) :
    CounterCall (.redis cmd : Op K) ∧ ∃ exchange, l = .request exchange := by
  cases l with
  | request exchange =>
    refine ⟨?_, exchange, rfl⟩
    cases h with
    | lookup => exact absurd hkey.symm (by simp [Command.key])
    | block => exact absurd hkey.symm (by simp [Command.key])
    | _ => trivial
  | message source payload =>
    cases h with
    | block => exact absurd hkey.symm (by simp [Command.key])

/-- The counts of every request counter are kept in every run in which the store answers. -/
theorem keyCounts_of_run (hrun : d.system.Run StoreAnswers start w) (c p : String) :
    KeyCounts (countKey c p) w.now w.shared w.log := by
  refine hrun.log_rule (I := fun now s (_ : List (Label K)) log =>
      KeyCounts (countKey c p) now s log) (KeyCounts.empty _) ?_
    (fun _ _ _ _ _ _ _ _ ih => ih) ?_
  · rintro now s ls log delay ⟨pending, hinv, hwaits⟩
    exact ⟨pending, hinv.tick delay, hwaits⟩
  intro now s ls log i path env op l m' hanswered ih _ _ htr
  have hop : d.LabelCall l op := htr.emits_concat (d.body_emits l)
  by_cases hredis : ∃ cmd, op = .redis cmd ∧ cmd.key = countKey c p
  · obtain ⟨cmd, rfl, hkey⟩ := hredis
    obtain ⟨hcount, exchange, rfl⟩ := counterCall_of_key hop hkey
    rw [show d.system.handle env now (.redis cmd) s = _ from d.handle_redis hanswered now cmd s]
      at htr ⊢
    obtain ⟨branch, rfl, ⟨heq, -⟩ | ⟨heq, hcalls⟩⟩ := windowCall_of_key
      (progress_of_trace htr) hcount (fun identity => by simp [hkey, Ne.symm])
    · rw [hkey] at heq
      subst heq
      exact ih.increment
    · rw [hkey] at heq hcalls
      subst heq
      exact ih.expire hcalls _
  · have hne : op ≠ .redis (.increment (countKey c p)) := fun h => hredis ⟨_, h, rfl⟩
    refine ih.other hne ?_
    by_cases hcmd : ∃ cmd, op = .redis cmd
    · obtain ⟨cmd, rfl⟩ := hcmd
      rw [show d.system.handle env now (.redis cmd) s = _ from d.handle_redis hanswered now cmd s]
      exact Store.exec_other fun hkey => hredis ⟨cmd, rfl, hkey⟩
    · rw [show (d.system.handle env now op s).2 = s from
        d.handle_store env now s fun cmd h => hcmd ⟨cmd, h⟩]

/-- The answered increments of a request counter are lives of its key, in time order. -/
theorem lives_of_run (hrun : d.system.Run StoreAnswers start w) (c p : String) :
    Lives lifeOf (hits (countKey c p) w.log) ∧
      (hits (countKey c p) w.log).Pairwise fun h h' => h.time ≤ h'.time := by
  obtain ⟨pending, hinv, -⟩ := keyCounts_of_run hrun c p
  refine ⟨hinv.lives, List.Pairwise.filterMap _ (fun e e' hle h hh h' hh' => ?_)
    hrun.coherent.sorted⟩
  rw [← (hitOf_eq_some.mp hh).1, ← (hitOf_eq_some.mp hh').1]
  exact hle

end Runs

end ApiFirewall.Guarantees
