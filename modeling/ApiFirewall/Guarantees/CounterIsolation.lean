import ApiFirewall.Guarantees.AuthStreak

/-!
# Isolation of counters

The key of a request counter joins the client and the path with a colon, and subjects of tokens
share the names of streaks with the addresses of clients. So requests of other clients and paths
leave a counter alone unless the joined texts collide, and requests of others leave the streak of a
subject alone unless one of them has no subject and resolves to an address that reads the same.
-/

namespace ApiFirewall.Guarantees

open ApiFirewall.Gateway ApiFirewall.Gateway.ZeroTrustFilter ApiFirewall.Gateway.RedisStateService
open ApiFirewall.Engine ApiFirewall.KeyValue ApiFirewall.Reactive Deployment

/-- The one client is the beginning of the other one, and the rest of the other client is the
beginning of the one path, with colons between. -/
def Overlap (c p c' p' : String) : Prop := ∃ x, c' = c ++ ":" ++ x ∧ p = x ++ ":" ++ p'

/-- Two pairs of a client and a path have one counter exactly if they are the same or overlap. -/
theorem countKey_eq_iff {c p c' p' : String} :
    countKey c p = countKey c' p' ↔ (c, p) = (c', p') ∨ Overlap c p c' p' ∨ Overlap c' p' c p := by
  have hjoin : ∀ {c p c' p' : List Char}, c ++ ':' :: p = c' ++ ':' :: p' →
      (c = c' ∧ p = p') ∨ (∃ x, c' = c ++ ':' :: x ∧ p = x ++ ':' :: p') ∨
        ∃ x, c = c' ++ ':' :: x ∧ p' = x ++ ':' :: p := by
    intro c p c' p' h
    rcases List.append_eq_append_iff.mp h with ⟨as, hc, hp⟩ | ⟨as, hc, hp⟩
    · cases as with
      | nil => exact .inl (by simpa [eq_comm] using And.intro hc hp)
      | cons a x =>
        obtain ⟨rfl, rfl⟩ := List.cons.inj hp
        exact .inr (.inl ⟨x, hc, rfl⟩)
    · cases as with
      | nil => exact .inl (by simpa [eq_comm] using And.intro hc hp)
      | cons a x =>
        obtain ⟨rfl, rfl⟩ := List.cons.inj hp
        exact .inr (.inr ⟨x, hc, rfl⟩)
  constructor
  · intro h
    have hlist : c.toList ++ ':' :: p.toList = c'.toList ++ ':' :: p'.toList := by
      simpa [countKey] using congrArg String.toList h
    rcases hjoin hlist with ⟨hc, hp⟩ | ⟨x, hc, hp⟩ | ⟨x, hc, hp⟩
    · exact .inl (Prod.ext (String.toList_injective hc) (String.toList_injective hp))
    · exact .inr (.inl ⟨.ofList x, String.toList_injective (by simp [hc]),
        String.toList_injective (by simp [hp])⟩)
    · exact .inr (.inr ⟨.ofList x, String.toList_injective (by simp [hc]),
        String.toList_injective (by simp [hp])⟩)
  · rintro (h | ⟨x, rfl, rfl⟩ | ⟨x, rfl, rfl⟩)
    · obtain ⟨rfl, rfl⟩ := Prod.mk.inj h
      rfl
    · simp [countKey, String.append_assoc]
    · simp [countKey, String.append_assoc]

variable {K : Type}

/-- The call is a command on the key. -/
def Touches (key : String) (op : Op K) : Prop := ∃ cmd, op = .redis cmd ∧ cmd.key = key

/-- The entries that a run has added. -/
def added (w w' : State K) : List (Entry (Op K) Res) := w'.log.drop w.log.length

variable {d : Deployment K}

/-- A call that does not touch a key leaves it as it is. -/
theorem handle_untouched (env : Env K) (now : ℕ) (op : Op K) (s : Store String) {key : String}
    (h : ¬ Touches key op) : (d.handle env now op s).2 key = s key := by
  by_cases hredis : ∃ cmd, op = .redis cmd
  · obtain ⟨cmd, rfl⟩ := hredis
    have hne : cmd.key ≠ key := fun hkey => h ⟨cmd, rfl, hkey⟩
    change (command env.delivery now s cmd).2 key = s key
    cases hdelivery : env.delivery with
    | rejected => rfl
    | _ => exact Store.exec_other hne
  · rw [d.handle_store env now s fun cmd hop => hredis ⟨cmd, hop⟩]

variable [Field K] [LinearOrder K] [FloorRing K] {P : Action Stimulus (Env K) → Prop}
  {w w' : State K}

/-- A run extends the log by what it has added, and leaves a key alone that none of it touches. -/
theorem untouched_of_added (hrun : d.system.Run P w w') :
    (∀ e ∈ added w w', e ∈ w'.log) ∧
      ∀ key, (∀ e ∈ added w w', ¬ Touches key e.event.op) → w'.shared key = w.shared key := by
  refine ⟨fun e he => List.mem_of_mem_drop he, fun key hadded => ?_⟩
  obtain ⟨new, hlog, hshared⟩ := hrun.frame (fun s => s key) (fun op => ¬ Touches key op)
    fun env now op s hquiet => handle_untouched env now op s hquiet
  refine hshared fun e he => hadded e ?_
  simpa [added, hlog] using he

/-- A counter of requests is touched by counter calls of requests that have its key. -/
theorem client_of_touch (hrun : d.system.Run P start w) {e : Entry (Op K) Res} (he : e ∈ w.log)
    {c p : String} (h : Touches (countKey c p) e.event.op) :
    CounterCall e.event.op ∧ ∃ exchange c', w.labels[e.thread]? = some (.request exchange) ∧
      resolveClientIp exchange = some c' ∧ countKey c' exchange.path = countKey c p := by
  obtain ⟨l, hl, hcall⟩ := labelCall_of_log hrun he
  obtain ⟨cmd, hop, hkey⟩ := h
  rw [hop] at hcall ⊢
  cases l with
  | message source payload =>
    cases hcall
    simp [Command.key] at hkey
  | request exchange =>
    cases hcall with
    | count hresolved => exact ⟨trivial, exchange, _, hl, hresolved, hkey⟩
    | window hresolved => exact ⟨trivial, exchange, _, hl, hresolved, hkey⟩
    | _ => simp [Command.key] at hkey

/-- The claims that a request was admitted with are the claims of its calls. -/
theorem claimsOf_of_admitted (hrun : d.system.Run P start w) {i : ℕ} {exchange : Exchange}
    (hi : w.labels[i]? = some (.request exchange)) {clientIp : String} {claims : Option Claims}
    {pre rest : Events K} (hpre : Admitted exchange clientIp claims pre)
    (hevents : w.events i = pre ++ rest) : claimsOf (w.events i) = claims := by
  obtain ⟨-, auth, body, rfl, hauth, -⟩ := hpre
  cases hauth with
  | publicPath hpath => exact claimsOf_eq_none hrun hi hpath
  | token => simp [hevents, claimsOf, Event.top]

/-- A streak is touched by counter calls of requests whose identity it belongs to. -/
theorem identity_of_touch (hrun : d.system.Run P start w) {e : Entry (Op K) Res} (he : e ∈ w.log)
    {s : String} (h : Touches (failstreakKey s) e.event.op) :
    CounterCall e.event.op ∧ ∃ exchange c', w.labels[e.thread]? = some (.request exchange) ∧
      resolveClientIp exchange = some c' ∧
      identityKey (claimsOf (w.events e.thread)) c' = s := by
  obtain ⟨l, hl, hcall⟩ := labelCall_of_log hrun he
  obtain ⟨cmd, hop, hkey⟩ := h
  rw [hop] at hcall
  cases l with
  | message source payload =>
    cases hcall
    simp [Command.key] at hkey
  | request exchange =>
    have hcounter : CounterCall e.event.op := by
      rw [hop]
      cases hcall <;> first | trivial | simp [Command.key] at hkey
    obtain ⟨m', hprogress⟩ := progress hrun hl
    have hmem : e.event ∈ w.events e.thread := mem_eventsOf.mpr ⟨e, he, rfl, rfl⟩
    rcases counting_of_progress hprogress with hnone |
      ⟨clientIp, claims, pre, counts, rest, a, b, c, hevents, hpre, hcounts, hrest⟩
    · exact absurd hcounter (hnone _ hmem)
    · have hcounted : e.event ∈ counts := by
        rw [hevents] at hmem
        rcases List.mem_append.mp hmem with hearly | hlater
        · exact absurd hcounter (hpre.preliminary _ hearly).not_counterCall
        · exact (List.mem_append.mp hlater).resolve_right fun hlate => hrest _ hlate hcounter
      rcases key_of_counting hcounts _ hcounted cmd hop with hcount | hstreak
      · exact absurd (hkey.symm.trans hcount) failstreakKey_ne_countKey
      · rw [claimsOf_of_admitted hrun hl hpre hevents]
        exact ⟨hcounter, exchange, clientIp, hl, hpre.resolved,
          failstreakKey_inj.mp (hstreak.symm.trans hkey)⟩

omit [Field K] [LinearOrder K] [FloorRing K] in
/-- The thread is a request of the client to the path. -/
def OfPair (w : State K) (c p : String) (i : ℕ) : Prop :=
  ∃ exchange, w.labels[i]? = some (.request exchange) ∧ resolveClientIp exchange = some c ∧
    exchange.path = p

/-- The thread is a request whose client and path overlap with others. -/
def Overlaps (w : State K) (c p : String) (i : ℕ) : Prop :=
  ∃ c' p', OfPair w c' p' i ∧ (Overlap c p c' p' ∨ Overlap c' p' c p)

/-- The thread is a request that was authenticated as the subject. -/
def AuthenticatedAs (w : State K) (s : String) (i : ℕ) : Prop :=
  (claimsOf (w.events i)).bind Claims.subject = some s

/-- The thread is a request without a subject whose client reads like the subject. -/
def ReadsLike (w : State K) (s : String) (i : ℕ) : Prop :=
  (claimsOf (w.events i)).bind Claims.subject = none ∧ ∃ p, OfPair w s p i

/-- In every run, whatever has happened before, a request counter is left alone by everything but
counter calls of the requests of its client to its path and of those that overlap with them, and a
streak is left alone by everything but counter calls of the requests that were authenticated as its
subject and of those that have no subject and whose client reads like it. -/
theorem counters_isolated (hrun : d.system.Run P start w) (hrun' : d.system.Run P w w') :
    (∀ c p, (∀ e ∈ added w w', CounterCall e.event.op → ¬ OfPair w' c p e.thread) →
      (∀ e ∈ added w w', CounterCall e.event.op → ¬ Overlaps w' c p e.thread) →
      w'.shared (countKey c p) = w.shared (countKey c p)) ∧
    (∀ s, (∀ e ∈ added w w', CounterCall e.event.op → ¬ AuthenticatedAs w' s e.thread) →
      (∀ e ∈ added w w', CounterCall e.event.op → ¬ ReadsLike w' s e.thread) →
      w'.shared (failstreakKey s) = w.shared (failstreakKey s)) := by
  obtain ⟨hlog, huntouched⟩ := untouched_of_added hrun'
  have hwhole := hrun.trans hrun'
  constructor
  · intro c p hothers hapart
    refine huntouched _ fun e he htouches => ?_
    obtain ⟨hcounter, exchange, c', hlabel, hresolved, hkey⟩ :=
      client_of_touch hwhole (hlog e he) htouches
    rcases countKey_eq_iff.mp hkey with heq | hoverlap
    · obtain ⟨rfl, rfl⟩ := Prod.mk.inj heq
      exact hothers e he hcounter ⟨exchange, hlabel, hresolved, rfl⟩
    · exact hapart e he hcounter
        ⟨c', exchange.path, ⟨exchange, hlabel, hresolved, rfl⟩, hoverlap.symm⟩
  · intro s hothers hapart
    refine huntouched _ fun e he htouches => ?_
    obtain ⟨hcounter, exchange, c', hlabel, hresolved, hidentity⟩ :=
      identity_of_touch hwhole (hlog e he) htouches
    unfold identityKey at hidentity
    cases hsubject : (claimsOf (w'.events e.thread)).bind Claims.subject with
    | some s' =>
      rw [hsubject] at hidentity
      exact hothers e he hcounter (hsubject.trans (congrArg some hidentity))
    | none =>
      rw [hsubject] at hidentity
      obtain rfl : c' = s := hidentity
      exact hapart e he hcounter ⟨hsubject, exchange.path, exchange, hlabel, hresolved, rfl⟩

/-- Count a request on a public path in a thread. -/
def countRequest (i : ℕ) (exchange : Exchange) : List (Action Stimulus (Env ℚ)) :=
  .spawn (.request exchange) :: callTop 1 i sampleEnv ++ callCounters true i sampleEnv

/-- A registration has been counted. -/
def firstRegistration : State ℚ :=
  sample.system.after (countRequest 0 (sampleRequest "/api/auth/register" "10.0.0.1")) start

/-- Then the registration of another client is counted. -/
def secondRegistration : State ℚ :=
  sample.system.after (countRequest 1 (sampleRequest "/api/auth/register" "10.0.0.2"))
    firstRegistration

/-- The second registration leaves the counter of the first one alone, and the streak of a
subject. -/
theorem secondRegistration_isolated :
    secondRegistration.shared (countKey "10.0.0.1" "/api/auth/register") =
      firstRegistration.shared (countKey "10.0.0.1" "/api/auth/register") ∧
    secondRegistration.shared (failstreakKey "alice") =
      firstRegistration.shared (failstreakKey "alice") := by
  have hrun : sample.system.Run Anything start firstRegistration :=
    System.Run.after (by decide +kernel) fun _ _ => trivial
  have hrun' : sample.system.Run Anything firstRegistration secondRegistration :=
    System.Run.after (by decide +kernel) fun _ _ => trivial
  have hthread : ∀ e ∈ added firstRegistration secondRegistration, e.thread = 1 := by
    decide +kernel
  have hlabel := requestAt_eq_some.mp (show requestAt secondRegistration.labels 1 =
    some (sampleRequest "/api/auth/register" "10.0.0.2") by decide +kernel)
  have hpair : ∀ e ∈ added firstRegistration secondRegistration, ∀ c p,
      OfPair secondRegistration c p e.thread → "10.0.0.2" = c ∧ "/api/auth/register" = p := by
    rintro e he c p ⟨exchange, hexchange, hresolved, rfl⟩
    rw [hthread e he, hlabel, Option.some.injEq, Label.request.injEq] at hexchange
    subst hexchange
    exact ⟨Option.some.inj hresolved, rfl⟩
  obtain ⟨hrates, hstreaks⟩ := counters_isolated hrun hrun'
  refine ⟨hrates _ _ (fun e he _ hof => ?_) fun e he _ hoverlaps => ?_,
    hstreaks _ (fun e he _ hauthenticated => ?_) fun e he _ hreads => ?_⟩
  · exact absurd (hpair e he _ _ hof).1 (by decide)
  · obtain ⟨c', p', hof, hoverlap⟩ := hoverlaps
    obtain ⟨rfl, rfl⟩ := hpair e he _ _ hof
    exact absurd (countKey_eq_iff.mpr (.inr hoverlap)) (by decide)
  · rw [hthread e he] at hauthenticated
    exact absurd hauthenticated (by unfold AuthenticatedAs; decide +kernel)
  · obtain ⟨-, p, hof⟩ := hreads
    exact absurd (hpair e he _ _ hof).1 (by decide)

/-- A request counter is left alone by all requests of other clients and to other paths. -/
def IsolatesRates (d : Deployment K) : Prop :=
  ∀ w w', d.system.Run Anything start w → d.system.Run Anything w w' → ∀ c p,
    (∀ e ∈ added w w', ¬ OfPair w' c p e.thread) →
    w'.shared (countKey c p) = w.shared (countKey c p)

/-- A streak is left alone by all requests that were not authenticated as its subject. -/
def IsolatesStreaks (d : Deployment K) : Prop :=
  ∀ w w', d.system.Run Anything start w → d.system.Run Anything w w' → ∀ s,
    (∀ e ∈ added w w', ¬ AuthenticatedAs w' s e.thread) →
    w'.shared (failstreakKey s) = w.shared (failstreakKey s)

/-- A login whose client is what somebody has put into a header. -/
def headerLogin (client : String) : Exchange :=
  { sampleRequest "/api/auth/login" "10.0.0.9" with headers := [("X-Forwarded-For", client)] }

/-- Such a login is counted. -/
def countedLogin (client : String) : State ℚ :=
  sample.system.after (countRequest 0 (headerLogin client)) start

/-- A login with a header that overlaps with a path is counted for that path, and one with a header
that reads like a subject extends the streak of the subject. -/
theorem forwarded_not_isolated : ¬ IsolatesRates sample ∧ ¬ IsolatesStreaks sample := by
  have hrun : ∀ client, (sample.system.exec (countRequest 0 (headerLogin client))
      start).isSome = true → sample.system.Run Anything start (countedLogin client) :=
    fun client h => System.Run.after h fun _ _ => trivial
  constructor
  · intro hall
    have hkept := hall start _ .refl (hrun "10.0.0.1:/x" (by decide +kernel)) "10.0.0.1"
      "/x:/api/auth/login" ?_
    · have hcounted : (countedLogin "10.0.0.1:/x").shared
          (countKey "10.0.0.1" "/x:/api/auth/login") ≠ none := by decide +kernel
      exact hcounted hkept
    · rintro e he ⟨exchange, hlabel, hresolved, hpath⟩
      have hthread : ∀ e ∈ added start (countedLogin "10.0.0.1:/x"), e.thread = 0 := by
        decide +kernel
      rw [hthread e he, requestAt_eq_some.mp (show requestAt (countedLogin "10.0.0.1:/x").labels 0 =
        some (headerLogin "10.0.0.1:/x") by decide +kernel), Option.some.injEq,
        Label.request.injEq] at hlabel
      subst hlabel
      exact absurd hpath (by decide)
  · intro hall
    have hkept := hall start _ .refl (hrun "alice" (by decide +kernel)) "alice" ?_
    · have hextended : (countedLogin "alice").shared (failstreakKey "alice") ≠ none := by
        decide +kernel
      exact hextended hkept
    · unfold AuthenticatedAs
      decide +kernel

end ApiFirewall.Guarantees
