import ApiFirewall.Guarantees.BlockWriters

/-!
# Blocks and peers

A block belongs to the client that the gateway resolves from the headers, not to the peer that sent
the request. Every block goes back to a request that received the decision, and every rejection to
an earlier block of the same client. So blocks follow the peers in every run in which two requests
resolve to the same client exactly if they come from the same peer, and a peer that chooses its
headers freely can leave its block behind or have another peer rejected.
-/

namespace ApiFirewall.Guarantees

open ApiFirewall.Wire ApiFirewall.Gateway ApiFirewall.Gateway.ZeroTrustFilter
open ApiFirewall.Gateway.RedisStateService ApiFirewall.KeyValue ApiFirewall.Reactive
open ApiFirewall.Engine ApiFirewall.Engine.KafkaConsumer Deployment

variable {K : Type}

/-- The thread works for the request of another one: it is that thread, or it consumes a message
that that thread has handed over. -/
def WorksFor (w : State K) (k i : ℕ) : Prop :=
  k = i ∨ ∃ source payload e, w.labels[k]? = some (.message source payload) ∧
    w.log[source]? = some e ∧ e.thread = i

/-- A thread works for at most one request. -/
theorem WorksFor.unique {w : State K} {k i i' : ℕ} {exchange exchange' : Exchange}
    (h : WorksFor w k i) (h' : WorksFor w k i') (hi : w.labels[i]? = some (.request exchange))
    (hi' : w.labels[i']? = some (.request exchange')) : i = i' := by
  rcases h with rfl | ⟨source, payload, e, hk, he, rfl⟩
  · rcases h' with rfl | ⟨source, payload, e, hk, -, -⟩
    · rfl
    · simp [hi] at hk
  · rcases h' with rfl | ⟨source', payload', e', hk', he', rfl⟩
    · simp [hi'] at hk
    · obtain ⟨rfl, -⟩ := Label.message.inj (Option.some.inj (hk.symm.trans hk'))
      rw [Option.some.inj (he.symm.trans he')]

/-- An earlier entry of the log has written every client that a lookup has found. -/
def Attributed (log : List (Entry (Op K) Res)) : Prop :=
  ∀ (k : ℕ) (e : Entry (Op K) Res) (c : String), log[k]? = some e → LooksUp c e (.value true) →
    ∃ (j : ℕ) (e' : Entry (Op K) Res), j < k ∧ log[j]? = some e' ∧ BlockWrite c e'

/-- One more entry keeps the attribution if it is attributed itself. -/
private theorem Attributed.concat {log : List (Entry (Op K) Res)} (h : Attributed log)
    {e : Entry (Op K) Res}
    (he : ∀ c, LooksUp c e (.value true) → ∃ e' ∈ log, BlockWrite c e') :
    Attributed (log ++ [e]) := by
  intro k e₀ c hk hlookup
  rw [List.getElem?_append] at hk
  split at hk
  · obtain ⟨j, e', hjk, hj, hwrite⟩ := h k e₀ c hk hlookup
    exact ⟨j, e', hjk, List.getElem?_append_left (List.getElem?_eq_some_iff.mp hj).1 ▸ hj, hwrite⟩
  · rename_i hlen
    obtain rfl := List.mem_singleton.mp (List.mem_of_getElem? hk)
    obtain ⟨e', hmem, hwrite⟩ := he c hlookup
    obtain ⟨j, hj⟩ := List.mem_iff_getElem?.mp hmem
    have hjlen := (List.getElem?_eq_some_iff.mp hj).1
    exact ⟨j, e', by omega, List.getElem?_append_left hjlen ▸ hj, hwrite⟩

/-- A request that blocks its client has been decided to be blocked. -/
private theorem decided_of_routed [Field K] {platform : Platform K}
    {properties : SecurityProperties K} {exchange : Exchange} {clientIp path key text : String}
    {rate10s : ℤ} {ttl : ℕ} {signal : RequestSignalDTO K} {rest : Events K} {m' : Program K Unit}
    {branch : List Branch} {r : Signal Bool}
    (h : Routed platform properties exchange clientIp path rate10s signal m' rest)
    (hmem : ⟨branch, .redis (.set key text ttl), r⟩ ∈ rest) :
    ∃ path signal reply result, ⟨path, .postScore signal, reply⟩ ∈ rest ∧
      scored reply = some result ∧ result.decision = some "BLOCK" := by
  have hop : Op.redis (.set key text ttl) ∈ rest.map Event.op := List.mem_map_of_mem hmem
  cases h with
  | waiting => simp at hmem
  | direct _ hchain =>
    have := hchain.1.subset hop
    simp at this
  | undecided => simp [Event.top] at hop
  | @enforced reply result after _ hscored henforce =>
    refine ⟨[], signal, reply, result, List.mem_cons_self .., hscored, ?_⟩
    by_contra hpass
    rcases List.mem_cons.mp hop with heq | hafter
    · simp [Event.top] at heq
    · have := henforce.1.subset hafter
      simp [enforcement, hpass] at this

section Runs

variable [Field K] [LinearOrder K] [FloorRing K] {d : Deployment K} {w : State K}

/-- Every client on the list was written, and every client that was found was written before. -/
theorem attributed_of_run (hrun : d.system.Run StoreAnswers start w) :
    (∀ c, w.shared (blocklistKey c) ≠ none → ∃ e ∈ w.log, BlockWrite c e) ∧ Attributed w.log := by
  refine hrun.log_rule (I := fun _ (s : Store String) (_ : List (Label K)) log =>
    (∀ c, s (blocklistKey c) ≠ none → ∃ e ∈ log, BlockWrite c e) ∧ Attributed log)
    ⟨by simp [Store.empty], by simp [Attributed]⟩ (fun _ _ _ _ _ ih => ih)
    (fun _ _ _ _ _ _ _ _ ih => ih) ?_
  rintro now s ls log i path env op l m' hanswered ⟨hstored, hlookups⟩ _ _ htr
  have hop : d.LabelCall l op := htr.emits_concat (d.body_emits l)
  have hkeep : ∀ {e : Entry (Op K) Res} {c : String}, s (blocklistKey c) ≠ none →
      ∃ e' ∈ log ++ [e], BlockWrite c e' := fun hc => by
    obtain ⟨e', he', hwrite⟩ := hstored _ hc
    exact ⟨e', List.mem_append_left _ he', hwrite⟩
  by_cases hredis : ∃ cmd, op = .redis cmd
  · obtain ⟨cmd, rfl⟩ := hredis
    rw [show d.system.handle env now (.redis cmd) s = _ from d.handle_redis hanswered now cmd s]
    refine ⟨fun c hc => ?_, hlookups.concat fun c hlooks => hstored c ?_⟩
    · rcases key_of_labelCall hop c with hne | rfl | ⟨text, ttl, rfl, -⟩
      · rw [Store.exec_other hne] at hc
        exact hkeep hc
      · exact hkeep hc
      · rcases Nat.eq_zero_or_pos ttl with rfl | hpos
        · exact hkeep hc
        · refine ⟨_, List.mem_append_right _ (List.mem_singleton_self _), path, text, ttl, ?_⟩
          simp [Nat.ne_of_gt hpos]
    · obtain ⟨path', heq⟩ := hlooks
      simp only [Event.mk.injEq, Op.redis.injEq] at heq
      obtain ⟨-, rfl, hreply⟩ := heq
      intro hnone
      simp [Store.get, hnone] at hreply
  · have hother : ∀ c, op ≠ .redis c := fun c hc => hredis ⟨c, hc⟩
    rw [show (d.system.handle env now op s).2 = s from d.handle_store env now s hother]
    refine ⟨fun c hc => hkeep hc, hlookups.concat fun c hlooks => ?_⟩
    obtain ⟨path', heq⟩ := hlooks
    simp only [Event.mk.injEq] at heq
    exact absurd heq.2.1 (hother _)

variable (d w) in
/-- The request has been decided to be blocked: by the engine's answer to it, or by the score of an
envelope that it has sent. -/
def DecidedBlock (i : ℕ) : Prop :=
  (∃ path signal reply result, ⟨path, .postScore signal, reply⟩ ∈ w.events i ∧
    scored reply = some result ∧ result.decision = some "BLOCK") ∨
  ∃ e ∈ w.events i, ∃ record result, sentRecord e = some record ∧
    scoreSignal d.engine (record.value.signal.received d.mapOrder) = some result ∧ result.decision = .block

/-- Every completed write of a client is done for a request of that client which has been decided
to be blocked. -/
theorem request_of_blockWrite (hrun : d.system.Run StoreAnswers start w) {e : Entry (Op K) Res}
    (he : e ∈ w.log) {c : String} (hwrite : BlockWrite c e) :
    ∃ i exchange, WorksFor w e.thread i ∧ w.labels[i]? = some (.request exchange) ∧
      resolveClientIp exchange = some c ∧ DecidedBlock d w i := by
  obtain ⟨path, text, ttl, hevent⟩ := hwrite
  obtain ⟨l, hl, hcall⟩ := labelCall_of_log hrun he
  rw [hevent] at hcall
  cases l with
  | request exchange =>
    obtain ⟨m', hprogress⟩ := progress hrun hl
    have hmem : ⟨path, .redis (.set (blocklistKey c) text ttl), .value true⟩ ∈
        w.events e.thread := mem_eventsOf.mpr ⟨e, he, rfl, hevent⟩
    obtain ⟨_, _, _, _, _, _, _, rest, -, -, hroute, hrest, hsub⟩ :=
      routed_of_scoring hprogress hmem trivial
    obtain ⟨path', signal, reply, result, hscore, hreply, hblock⟩ := decided_of_routed hroute hrest
    refine ⟨e.thread, exchange, .inl rfl, hl, ?_,
      .inl ⟨path', signal, reply, result, hsub _ hscore, hreply, hblock⟩⟩
    generalize hkey : blocklistKey c = key at hcall
    cases hcall with
    | block hresolved => rw [hresolved, blocklistKey_inj.mp hkey]
  | message source payload =>
    obtain ⟨e', record, hsource, hsent, rfl⟩ := source_of_message hrun hl
    obtain ⟨result, hscore, hblock, -, hset⟩ := command_of_envelope hcall
    simp only [Command.set.injEq, blocklistKey_inj] at hset
    obtain ⟨rfl, -, -⟩ := hset
    have he' := List.mem_of_getElem? hsource
    obtain ⟨l', hl', hcall'⟩ := labelCall_of_log hrun he'
    rw [op_of_sentRecord hsent] at hcall'
    cases l' with
    | request exchange =>
      refine ⟨e'.thread, exchange, .inr ⟨source, _, e', hl, hsource, rfl⟩, hl',
        clientIp_of_sent hrun hl' he' rfl hsent, .inr ⟨e'.event, ?_, record, result, hsent,
          hscore, hblock⟩⟩
      exact mem_eventsOf.mpr ⟨e', he', rfl, rfl⟩
    | message source' payload' =>
      change MessageCall d.engine payload' (.send record) at hcall'
      cases hcall'

/-- The client of a completed write is the client of the request it is done for. -/
theorem client_of_blockWrite (hrun : d.system.Run StoreAnswers start w) {e : Entry (Op K) Res}
    (he : e ∈ w.log) {c : String} (hwrite : BlockWrite c e) {i : ℕ} {exchange : Exchange}
    (hi : w.labels[i]? = some (.request exchange)) (hfor : WorksFor w e.thread i) :
    resolveClientIp exchange = some c := by
  obtain ⟨i', exchange', hfor', hi', hresolved, -⟩ := request_of_blockWrite hrun he hwrite
  obtain rfl := hfor.unique hfor' hi hi'
  obtain rfl := Label.request.inj (Option.some.inj (hi.symm.trans hi'))
  exact hresolved

/-- The client that a request looks up is its own. -/
theorem client_of_looksUp {P : Action Stimulus (Env K) → Prop} (hrun : d.system.Run P start w)
    {e : Entry (Op K) Res} (he : e ∈ w.log) {c : String} {reply : Signal Bool}
    (hlookup : LooksUp c e reply) {exchange : Exchange}
    (hi : w.labels[e.thread]? = some (.request exchange)) : resolveClientIp exchange = some c := by
  obtain ⟨path, hevent⟩ := hlookup
  obtain ⟨l, hl, hcall⟩ := labelCall_of_log hrun he
  obtain rfl := Option.some.inj (hi.symm.trans hl)
  rw [hevent] at hcall
  generalize hkey : blocklistKey c = key at hcall
  cases hcall with
  | lookup hresolved => rw [hresolved, blocklistKey_inj.mp hkey]

end Runs

/-- The entry is a completed block of the request. -/
def BlocksRequest (w : State K) (i : ℕ) (e : Entry (Op K) Res) : Prop :=
  WorksFor w e.thread i ∧ ∃ c, BlockWrite c e

/-- After a completed block of one of its requests, a peer is rejected whenever a request of it
looks its client up within the block time. -/
def BlockedPeersRejected (d : Deployment K) (w : State K) : Prop :=
  ∀ (j k i : ℕ) (e e' : Entry (Op K) Res) exchange exchange' m c reply, j < k →
    w.log[j]? = some e → w.log[k]? = some e' → w.labels[i]? = some (.request exchange') →
    w.threads[e'.thread]? = some (.request exchange, m) →
    exchange'.remoteAddress = exchange.remoteAddress → BlocksRequest w i e →
    LooksUp c e' reply → e'.time < e.time + blockTime d →
    RejectedAsBlocked c (w.events e'.thread) m

/-- A request is found blocked only after a request of the same peer was decided to be blocked and
blocked. -/
def RejectionsDeserved [Field K] [LinearOrder K] [FloorRing K] (d : Deployment K)
    (w : State K) : Prop :=
  ∀ (k : ℕ) (e' : Entry (Op K) Res) exchange c, w.log[k]? = some e' →
    w.labels[e'.thread]? = some (.request exchange) → LooksUp c e' (.value true) →
    ∃ (j i : ℕ) (e : Entry (Op K) Res) (exchange' : Exchange), j < k ∧ w.log[j]? = some e ∧
      w.labels[i]? = some (.request exchange') ∧
      exchange'.remoteAddress = exchange.remoteAddress ∧ BlocksRequest w i e ∧ DecidedBlock d w i

/-- Requests that resolve to a client resolve to the same one exactly if they come from the same
peer. -/
def PeersIdentified (w : State K) : Prop :=
  ∀ (i i' : ℕ) exchange exchange' c c', w.labels[i]? = some (.request exchange) →
    w.labels[i']? = some (.request exchange') → resolveClientIp exchange = some c →
    resolveClientIp exchange' = some c' →
    (c = c' ↔ exchange.remoteAddress = exchange'.remoteAddress)

/-- Blocks follow the peers in every run in which clients and peers correspond. -/
theorem blocks_follow_peers [Field K] [LinearOrder K] [FloorRing K] {d : Deployment K}
    {w : State K} (hrun : d.system.Run StoreAnswers start w) (hpeers : PeersIdentified w) :
    BlockedPeersRejected d w ∧ RejectionsDeserved d w := by
  constructor
  · intro j k i e e' exchange exchange' m c reply hjk hj hk hi hthread hpeer hblocks hlookup htime
    obtain ⟨hfor, c', hwrite⟩ := hblocks
    have hlabel : w.labels[e'.thread]? = some (.request exchange) := by
      simp [World.labels, hthread]
    have hc' := client_of_blockWrite hrun (List.mem_of_getElem? hj) hwrite hi hfor
    have hc := client_of_looksUp hrun (List.mem_of_getElem? hk) hlookup hlabel
    obtain rfl := (hpeers i e'.thread exchange' exchange c' c hi hlabel hc' hc).mpr hpeer
    exact rejected_while_blocked hrun hjk hj hk hwrite hlookup htime hthread
  · intro k e' exchange c hk hlabel hlookup
    obtain ⟨j, e, hjk, hj, hwrite⟩ := (attributed_of_run hrun).2 k e' c hk hlookup
    obtain ⟨i, exchange', hfor, hi, hc', hdecided⟩ :=
      request_of_blockWrite hrun (List.mem_of_getElem? hj) hwrite
    have hc := client_of_looksUp hrun (List.mem_of_getElem? hk) hlookup hlabel
    have hpeer := (hpeers i e'.thread exchange' exchange c c hi hlabel hc' hc).mp rfl
    exact ⟨j, i, e, exchange', hjk, hj, hi, hpeer, ⟨hfor, c, hwrite⟩, hdecided⟩

/-- Threads that are all requests identify their peers if the requests do. -/
theorem peersIdentified_of_requests {w : State K} {requests : List Exchange}
    (hlabels : w.labels = requests.map .request)
    (h : ∀ x ∈ requests, ∀ y ∈ requests,
      (resolveClientIp x = resolveClientIp y ↔ x.remoteAddress = y.remoteAddress)) :
    PeersIdentified w := by
  have hmem : ∀ (i : ℕ) exchange, w.labels[i]? = some (.request exchange) →
      exchange ∈ requests := by
    intro i exchange hi
    obtain ⟨x, hx, heq⟩ := List.mem_map.mp (hlabels ▸ List.mem_of_getElem? hi)
    exact Label.request.inj heq ▸ hx
  intro i i' x y c c' hi hi' hc hc'
  rw [← h x (hmem i x hi) y (hmem i' y hi'), hc, hc', Option.some.injEq]

/-- A login that names another client in its headers. -/
def forwardedLogin (address forwarded : String) : Exchange :=
  { sampleRequest "/api/auth/login" address with headers := [("X-Forwarded-For", forwarded)] }

/-- A run in which every peer sends the same headers again: the first peer is blocked and comes
back, and the second one is not blocked. -/
def steadyPeers : State ℚ :=
  sample.system.after
    (.spawn (.request (forwardedLogin "10.0.0.66" "10.0.0.7")) ::
      callTop 1 0 blockingEnv ++ callCounters true 0 blockingEnv ++ callTop 8 0 blockingEnv ++
      .spawn (.request (forwardedLogin "10.0.0.66" "10.0.0.7")) :: callTop 4 1 blockingEnv ++
      .spawn (.request (sampleRequest "/api/auth/login" "10.0.0.1")) :: callTop 1 2 blockingEnv)
    start

/-- Its blocks follow the peers. -/
theorem steadyPeers_follow :
    BlockedPeersRejected sample steadyPeers ∧ RejectionsDeserved sample steadyPeers :=
  blocks_follow_peers (System.Run.after rfl (by decide)) (peersIdentified_of_requests
    (show steadyPeers.labels = [forwardedLogin "10.0.0.66" "10.0.0.7",
      forwardedLogin "10.0.0.66" "10.0.0.7", sampleRequest "/api/auth/login" "10.0.0.1"].map
        .request from rfl) (by decide +kernel))

/-- A run in which a peer has its request blocked under the address of another one and comes back
without that header, and the other peer sends its first request. -/
def spoofedLogin : State ℚ :=
  sample.system.after
    (.spawn (.request (forwardedLogin "10.0.0.66" "10.0.0.1")) ::
      callTop 1 0 blockingEnv ++ callCounters true 0 blockingEnv ++ callTop 8 0 blockingEnv ++
      .spawn (.request (sampleRequest "/api/auth/login" "10.0.0.66")) :: callTop 1 1 blockingEnv ++
      .spawn (.request (sampleRequest "/api/auth/login" "10.0.0.1")) :: callTop 4 2 blockingEnv)
    start

/-- The blocked peer is let in, and the other one is rejected. -/
theorem spoofedLogin_misplaced :
    sample.system.Run StoreAnswers start spoofedLogin ∧
      ¬ BlockedPeersRejected sample spoofedLogin ∧ ¬ RejectionsDeserved sample spoofedLogin := by
  refine ⟨System.Run.after rfl (by decide), fun h => ?_, fun h => ?_⟩
  · obtain ⟨auth, rej, hevents, -⟩ := h 12 14 0 _ _ (sampleRequest "/api/auth/login" "10.0.0.66")
      (forwardedLogin "10.0.0.66" "10.0.0.1") _ "10.0.0.66" _ (by decide)
      (show spoofedLogin.log[12]? = some _ from rfl) (show spoofedLogin.log[14]? = some _ from rfl)
      rfl rfl rfl ⟨.inl rfl, "10.0.0.1", _, _, _, rfl⟩ ⟨[], rfl⟩ (by decide)
    have hmem : lookup "10.0.0.66" (.value true) ∈
        ([lookup "10.0.0.66" (.value false)] : Events ℚ) := by
      rw [show [lookup "10.0.0.66" (.value false)] = _ from hevents]
      simp
    simp [lookup, Event.top] at hmem
  · obtain ⟨j, i, e, exchange, hj, hlog, hi, hpeer, ⟨hfor, -⟩, -⟩ := h 15 _
      (sampleRequest "/api/auth/login" "10.0.0.1") "10.0.0.1"
      (show spoofedLogin.log[15]? = some _ from rfl) rfl ⟨[], rfl⟩
    have hlabels : spoofedLogin.labels = [forwardedLogin "10.0.0.66" "10.0.0.1",
        sampleRequest "/api/auth/login" "10.0.0.66",
        sampleRequest "/api/auth/login" "10.0.0.1"].map .request := rfl
    obtain rfl : i = 2 := by
      rw [hlabels] at hi
      rcases i with _ | _ | _ | n
      · obtain rfl := Label.request.inj (Option.some.inj hi)
        exact absurd hpeer (by decide)
      · obtain rfl := Label.request.inj (Option.some.inj hi)
        exact absurd hpeer (by decide)
      · rfl
      · simp at hi
    rcases hfor with hthread | ⟨source, payload, -, hk, -⟩
    · have hall : ∀ e ∈ spoofedLogin.log.take 15, e.thread ≠ 2 := by decide
      refine hall e (List.mem_of_getElem? (?_ : _[j]? = some e)) hthread
      rw [List.getElem?_take_of_lt hj, hlog]
    · obtain ⟨x, -, hx⟩ := List.mem_map.mp (hlabels ▸ List.mem_of_getElem? hk)
      simp at hx

end ApiFirewall.Guarantees
