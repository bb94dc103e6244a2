import ApiFirewall.Guarantees.Enforcement

/-!
# The blocklist over whole runs

Two writers put clients on the blocklist, each with its own time to live, and nothing else touches
a blocklist key. So a client that was written stays on the list for at least the shorter of the two
times, and a request whose lookup falls in that time is rejected and does nothing else.
-/

namespace ApiFirewall.Guarantees

open ApiFirewall.Gateway ApiFirewall.Gateway.ZeroTrustFilter ApiFirewall.Gateway.RedisStateService
open ApiFirewall.KeyValue ApiFirewall.Reactive ApiFirewall.Engine Deployment

variable {K : Type} (d : Deployment K)

/-- How long every block lasts at least, in milliseconds. -/
def blockTime : ℕ :=
  min (seconds d.properties.blocklistTtlSeconds) (seconds d.engine.blocklistTtlSeconds)

/-- The entry is a completed write of a client to the blocklist. -/
def BlockWrite (c : String) (e : Entry (Op K) Res) : Prop :=
  ∃ path text ttl, e.event = ⟨path, .redis (.set (blocklistKey c) text ttl), .value true⟩

/-- The entry is a lookup of a client, with its reply. -/
def LooksUp (c : String) (e : Entry (Op K) Res) (reply : Signal Bool) : Prop :=
  ∃ path, e.event = ⟨path, .redis (.hasKey (blocklistKey c)), reply⟩

/-- Every written client is on the list until its block time is over. -/
def BlocksLive (s : Store String) (log : List (Entry (Op K) Res)) : Prop :=
  ∀ c, ∀ e ∈ log, BlockWrite c e → s.LiveUntil (blocklistKey c) (e.time + blockTime d)

/-- A lookup after a write finds the client if it comes within the block time. -/
def Finds (e e' : Entry (Op K) Res) : Prop :=
  ∀ c reply, BlockWrite c e → LooksUp c e' reply → e'.time < e.time + blockTime d →
    reply = .value true

/-- An entry that is no command is neither a write nor a lookup. -/
private theorem not_redis {now i : ℕ} {path : List Branch} {op : Op K} {r : Signal (Res op)}
    (h : ∀ c, op ≠ .redis c) (c : String) :
    ¬ BlockWrite c ⟨now, i, ⟨path, op, r⟩⟩ ∧ ∀ reply, ¬ LooksUp c ⟨now, i, ⟨path, op, r⟩⟩ reply := by
  constructor
  · rintro ⟨path', text, ttl, heq⟩
    simp only [Event.mk.injEq] at heq
    exact h _ heq.2.1
  · rintro reply ⟨path', heq⟩
    simp only [Event.mk.injEq] at heq
    exact h _ heq.2.1

section Runs

variable [Field K] [LinearOrder K] [FloorRing K] {d}

/-- A command of a thread touches a blocklist key only to look it up or to write it. -/
theorem key_of_labelCall {l : Label K} {cmd : Command String} (h : d.LabelCall l (.redis cmd))
    (c : String) : cmd.key ≠ blocklistKey c ∨ cmd = .hasKey (blocklistKey c) ∨
      ∃ text ttl, cmd = .set (blocklistKey c) text ttl ∧ blockTime d ≤ ttl := by
  cases l with
  | request exchange =>
    cases h with
    | @lookup clientIp _ =>
      by_cases hc : clientIp = c
      · exact .inr (.inl (hc ▸ rfl))
      · exact .inl (by simpa [Command.key] using hc)
    | count => exact .inl (by simp [Command.key])
    | window => exact .inl (by simp [Command.key])
    | streak => exact .inl (by simp [Command.key])
    | extend => exact .inl (by simp [Command.key])
    | @block clientIp _ reason =>
      by_cases hc : clientIp = c
      · exact .inr (.inr ⟨reason, _, hc ▸ rfl, Nat.min_le_left _ _⟩)
      · exact .inl (by simpa [Command.key] using hc)
  | message source payload =>
    cases h with
    | @block _ result client _ _ _ _ =>
      by_cases hc : client = c
      · exact .inr (.inr ⟨result.reason, _, hc ▸ rfl, Nat.min_le_right _ _⟩)
      · exact .inl (by simpa [Command.key] using hc)

/-- A command leaves written clients on the list, and its own write puts a client there. -/
theorem BlocksLive.command {s : Store String} {log : List (Entry (Op K) Res)}
    (h : BlocksLive d s log) {now i : ℕ} {l : Label K} {cmd : Command String} {path : List Branch}
    (hop : d.LabelCall l (.redis cmd)) (htime : ∀ e ∈ log, e.time ≤ now) :
    BlocksLive d (s.exec now cmd).2 (log ++ [⟨now, i, ⟨path, .redis cmd, answer now s cmd⟩⟩]) := by
  intro c e he hwrite
  rcases List.mem_append.mp he with hold | hnew
  · refine (h c e hold hwrite).exec ?_
    rcases key_of_labelCall hop c with hne | hkey | ⟨text, ttl, hset, httl⟩
    · exact .inl hne
    · exact .inr (.inl hkey)
    · exact .inr (.inr ⟨text, ttl, hset, Nat.add_le_add (htime e hold) httl⟩)
  · obtain rfl := List.mem_singleton.mp hnew
    obtain ⟨path', text, ttl, heq⟩ := hwrite
    simp only [Event.mk.injEq, Op.redis.injEq] at heq
    obtain ⟨-, rfl, hreply⟩ := heq
    rcases key_of_labelCall hop c with hne | hkey | ⟨text', ttl', hset, httl⟩
    · exact absurd rfl hne
    · simp at hkey
    · simp only [Command.set.injEq] at hset
      obtain ⟨-, -, rfl⟩ := hset
      rcases Nat.eq_zero_or_pos ttl with rfl | hpos
      · simp at hreply
      · exact (Store.liveUntil_set text hpos).mono (Nat.add_le_add_left httl now)

omit [Field K] [LinearOrder K] [FloorRing K] in
/-- A lookup that is answered finds a client that is on the list. -/
theorem BlocksLive.finds {s : Store String} {log : List (Entry (Op K) Res)}
    (h : BlocksLive d s log) {e : Entry (Op K) Res} (he : e ∈ log) (now i : ℕ) (path : List Branch)
    (cmd : Command String) : Finds d e ⟨now, i, ⟨path, .redis cmd, answer now s cmd⟩⟩ := by
  intro c reply hwrite ⟨path', heq⟩ hin
  simp only [Event.mk.injEq, Op.redis.injEq] at heq
  obtain ⟨-, rfl, hreply⟩ := heq
  have hsome := (h c e he hwrite).get_isSome hin
  simpa [hsome] using hreply.symm

omit [Field K] [LinearOrder K] [FloorRing K] in
/-- Calls that are no commands do not matter to the list. -/
theorem BlocksLive.other {s : Store String} {log : List (Entry (Op K) Res)}
    (h : BlocksLive d s log) {now i : ℕ} {path : List Branch} {op : Op K} {r : Signal (Res op)}
    (hother : ∀ c, op ≠ .redis c) : BlocksLive d s (log ++ [⟨now, i, ⟨path, op, r⟩⟩]) := by
  intro c e he hwrite
  rcases List.mem_append.mp he with hold | hnew
  · exact h c e hold hwrite
  · obtain rfl := List.mem_singleton.mp hnew
    exact absurd hwrite (not_redis hother c).1

/-- Every written client is on the list until its block time is over, and every lookup in that time
has found it. -/
theorem blocks_live {w : State K} (hrun : d.system.Run StoreAnswers start w) :
    BlocksLive d w.shared w.log ∧ w.log.Pairwise (Finds d) := by
  refine hrun.log_rule (I := fun _ s _ log => BlocksLive d s log ∧ log.Pairwise (Finds d))
    ⟨by simp [BlocksLive], .nil⟩ (fun _ _ _ _ _ ih => ih) (fun _ _ _ _ _ _ _ _ ih => ih) ?_
  rintro now s ls log i path env op l m' hanswered ⟨hlive, hpairs⟩ htime _ htr
  have hop : d.LabelCall l op := htr.emits_concat (d.body_emits l)
  rw [List.pairwise_append]
  by_cases hredis : ∃ cmd, op = .redis cmd
  · obtain ⟨cmd, rfl⟩ := hredis
    rw [show d.system.handle env now (.redis cmd) s = _ from d.handle_redis hanswered now cmd s]
    refine ⟨hlive.command hop htime, hpairs, List.pairwise_singleton _ _, ?_⟩
    intro e he e' he'
    obtain rfl := List.mem_singleton.mp he'
    exact hlive.finds he now i path cmd
  · have hother : ∀ c, op ≠ .redis c := fun c hc => hredis ⟨c, hc⟩
    rw [show (d.system.handle env now op s).2 = s from d.handle_store env now s hother]
    refine ⟨hlive.other hother, hpairs, List.pairwise_singleton _ _, ?_⟩
    intro e he e' he' c reply _ hlookup
    obtain rfl := List.mem_singleton.mp he'
    exact absurd hlookup ((not_redis hother c).2 reply)

/-- A lookup that comes after a completed write and within the block time finds the client. -/
theorem found_of_blocked {w : State K} (hrun : d.system.Run StoreAnswers start w) {c : String}
    {e e' : Entry (Op K) Res} {j k : ℕ} (hjk : j < k) (hj : w.log[j]? = some e)
    (hk : w.log[k]? = some e') (hwrite : BlockWrite c e) {reply : Signal Bool}
    (hlookup : LooksUp c e' reply) (htime : e'.time < e.time + blockTime d) :
    reply = .value true := by
  obtain ⟨hj', rfl⟩ := List.getElem?_eq_some_iff.mp hj
  obtain ⟨hk', rfl⟩ := List.getElem?_eq_some_iff.mp hk
  exact List.pairwise_iff_getElem.mp (blocks_live hrun).2 j k hj' hk' hjk c reply hwrite hlookup
    htime

/-- The request has authenticated, has found its client blocked, and does nothing but reject. -/
def RejectedAsBlocked (c : String) (events : Events K) (m : Program K Unit) : Prop :=
  ∃ auth rej, events = auth ++ lookup c (.value true) :: rej ∧
    (∀ e ∈ auth, ∃ token, e.op = .parseSignedClaims token) ∧
    Follows (rejection 403 "Client is temporarily blocked") rej m

/-- A request whose lookup finds its client is rejected. -/
theorem rejectedAsBlocked_of_lookup {P : Action Stimulus (Env K) → Prop} {w : State K}
    (hrun : d.system.Run P start w) {i : ℕ} {exchange : Exchange} {m : Program K Unit}
    (hi : w.threads[i]? = some (.request exchange, m)) {c : String} {path : List Branch}
    (hmem : ⟨path, .redis (.hasKey (blocklistKey c)), .value true⟩ ∈ w.events i) :
    resolveClientIp exchange = some c ∧ RejectedAsBlocked c (w.events i) m := by
  obtain ⟨m', htr, hm⟩ := hrun.coherent.trace i _ m hi
  obtain ⟨hresolved, auth, rej, hevents, hauth, hrej⟩ :=
    rejected_of_lookup (progress_of_trace htr) hmem
  refine ⟨hresolved, auth, rej, hevents, hauth, hrej.1, fun hc => ?_⟩
  rcases hm with rfl | rfl
  · exact hrej.2 hc
  · obtain ⟨a, ha⟩ := hc
    simp [Mono.outcome] at ha

/-- A request is rejected if it looks its client up after a completed write and within the block
time. -/
theorem rejected_while_blocked {w : State K} (hrun : d.system.Run StoreAnswers start w)
    {c : String} {e e' : Entry (Op K) Res} {j k : ℕ} (hjk : j < k) (hj : w.log[j]? = some e)
    (hk : w.log[k]? = some e') (hwrite : BlockWrite c e) {reply : Signal Bool}
    (hlookup : LooksUp c e' reply) (htime : e'.time < e.time + blockTime d) {exchange : Exchange}
    {m : Program K Unit} (hi : w.threads[e'.thread]? = some (.request exchange, m)) :
    RejectedAsBlocked c (w.events e'.thread) m := by
  obtain rfl := found_of_blocked hrun hjk hj hk hwrite hlookup htime
  obtain ⟨path, hevent⟩ := hlookup
  exact (rejectedAsBlocked_of_lookup hrun hi
    (mem_eventsOf.mpr ⟨e', List.mem_of_getElem? hk, rfl, hevent⟩)).2

/-- After a completed write of a client, every lookup within the block time finds it, and every
request with such a lookup is rejected without counting or reaching the backend. -/
theorem block_persists {w : State K} (hrun : d.system.Run StoreAnswers start w) {c : String}
    {e e' : Entry (Op K) Res} {j k : ℕ} (hjk : j < k) (hj : w.log[j]? = some e)
    (hk : w.log[k]? = some e') (hwrite : BlockWrite c e) {reply : Signal Bool}
    (hlookup : LooksUp c e' reply) (htime : e'.time < e.time + blockTime d) :
    reply = .value true ∧ ∀ exchange m, w.threads[e'.thread]? = some (.request exchange, m) →
      RejectedAsBlocked c (w.events e'.thread) m :=
  ⟨found_of_blocked hrun hjk hj hk hwrite hlookup htime, fun _ _ hi =>
    rejected_while_blocked hrun hjk hj hk hwrite hlookup htime hi⟩

end Runs

/-- A run in which a login is blocked, and the same client asks for its next login. -/
def repeatedLogin : State ℚ :=
  sample.system.after
    (.spawn (.request (sampleRequest "/api/auth/login" "10.0.0.1")) ::
      callTop 1 0 blockingEnv ++ callCounters true 0 blockingEnv ++ callTop 8 0 blockingEnv ++
      [.tick 1000, .spawn (.request (sampleRequest "/api/auth/login" "10.0.0.1"))] ++
      callTop 4 1 blockingEnv) start

/-- The next login is rejected. -/
theorem repeatedLogin_rejected :
    RejectedAsBlocked "10.0.0.1" (repeatedLogin.events 1) (.done (.value ())) :=
  (block_persists (System.Run.after rfl (by decide))
    (show 12 < 14 by decide) (show repeatedLogin.log[12]? = some _ from rfl)
    (show repeatedLogin.log[14]? = some _ from rfl) ⟨_, _, _, rfl⟩ ⟨_, rfl⟩
    (by decide)).2 (sampleRequest "/api/auth/login" "10.0.0.1") _ rfl

end ApiFirewall.Guarantees
