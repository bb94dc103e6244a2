import ApiFirewall.Guarantees.AnsweredOnce
import ApiFirewall.Guarantees.BoundedWork
import ApiFirewall.Guarantees.StoreTypes

/-!
# Every request can still be answered

Whatever has happened to other requests and to the store, a request none of whose calls has left it
without an answer can be brought to its answer by its own steps alone, as soon as the services answer.
No state that a run reaches is a trap: neither a client's choice of names nor the calls of other
threads can keep a request from its answer.
-/

namespace ApiFirewall.Guarantees

open ApiFirewall.Wire ApiFirewall.Gateway ApiFirewall.Gateway.ZeroTrustFilter ApiFirewall.KeyValue
open ApiFirewall.Reactive Deployment

variable {K : Type}

/-- The services answer: commands and calls succeed, the token library decides on every token, and
the engine's answer, if there is one, is not empty and no block without a reason. -/
structure Serves (d : Deployment K) (env : Env K) : Prop where
  delivery : env.delivery = .answered
  succeeds : env.succeeds = true
  decides : ∀ token, d.parseSignedClaims env.clocks.now token ≠ none
  score : env.score ≠ .empty ∧
    ∀ result, env.score = .value result → ¬ (result.decision = some "BLOCK" ∧ result.reason = none)

variable [Field K] [LinearOrder K] [FloorRing K] {d : Deployment K} {env : Env K} {w : State K}
  {i : ℕ} {exchange : Exchange}

omit [Field K] [LinearOrder K] [FloorRing K] in
/-- A call outside the store is not left without an answer where the services answer. -/
theorem Serves.reply_of_ne_redis (h : Serves d env) (now : ℕ) (s : Store String) {op : Op K}
    (hop : ∀ c, op ≠ .redis c) : ¬ EndsUnanswered op (d.handle env now op s).1 := by
  cases op with
  | redis c => exact absurd rfl (hop c)
  | parseSignedClaims token =>
    obtain ⟨verdict, hverdict⟩ := Option.ne_none_iff_exists'.mp (h.decides token)
    simp [EndsUnanswered, handle, hverdict]
  | postScore signal =>
    obtain ⟨hne, hvalue⟩ := h.score
    change ¬ EndsUnanswered (.postScore signal) env.score
    cases hscore : env.score with
    | value result => exact hvalue result hscore
    | empty => exact absurd hscore hne
    | error => exact id
  | _ => simp [EndsUnanswered, Required, handle, completion, h.succeeds]

/-- A command of a request is not left without an answer where the store has room for its counters. -/
theorem reply_of_redis (hrun : d.system.Run Anything start w)
    (httl : 0 < d.properties.blocklistTtlSeconds) (hsize : (w.log.length : ℤ) < Store.maxCounter)
    (henv : Serves d env) {c : Command String}
    (hcall : d.LabelCall (.request exchange) (.redis c)) :
    ¬ EndsUnanswered (.redis c : Op K) (d.handle env w.now (.redis c) w.shared).1 := by
  have hwrites : ∀ k v ttl, c = .set k v ttl → 0 < ttl := by
    rintro k v ttl rfl
    change RequestCall d.properties exchange (.redis (.set k v ttl)) at hcall
    cases hcall with
    | block =>
      unfold seconds
      omega
  obtain ⟨r, hr⟩ := (typed_of_run hrun).answers hsize (respects_of_labelCall hcall) hwrites w.now
  rw [d.handle_redis henv.delivery]
  simp [EndsUnanswered, answer, hr]

/-- Steps of a request alone, where the services answer, leave it with no failed call, and the log
grows by its calls. -/
theorem clean_of_steps (hrun : d.system.Run Anything start w)
    (hi : w.labels[i]? = some (.request exchange)) (hclean : Clean EndsUnanswered (w.events i))
    (httl : 0 < d.properties.blocklistTtlSeconds)
    (hsize : (w.log.length : ℤ) + 18 ≤ Store.maxCounter) (henv : Serves d env) {w' : State K}
    (h : d.system.Run (fun a => a.StepsThread i env) w w') :
    Clean EndsUnanswered (w'.events i) ∧ w'.labels[i]? = some (.request exchange) ∧
      w'.log.length + (w.events i).length = w.log.length + (w'.events i).length := by
  induction h with
  | refl => exact ⟨hclean, hi, rfl⟩
  | @step w₁ w₂ a hsteps ha hstep ih =>
    obtain ⟨hclean₁, hi₁, hlength₁⟩ := ih
    have hrun₁ : d.system.Run Anything start w₁ := hrun.trans (hsteps.mono fun _ _ => trivial)
    have hrun₂ : d.system.Run Anything start w₂ := hrun₁.step trivial hstep
    cases a with
    | call j path env' =>
      obtain ⟨rfl, rfl⟩ := ha
      obtain ⟨op, hlog, hevents, hlabels⟩ := System.log_of_step_call hstep
      have hi₂ : w₂.labels[j]? = some (.request exchange) := by rw [hlabels, hi₁]
      have hbound : (w₁.events j).length + 1 ≤ 18 := by
        have hle := hrun₂.length_events_le (within_body d) hi₂
        rwa [hevents, List.length_append] at hle
      have hreply : ¬ EndsUnanswered op (d.handle env' w₁.now op w₁.shared).1 := by
        by_cases hredis : ∃ c, op = .redis c
        · obtain ⟨c, rfl⟩ := hredis
          obtain ⟨l, hl, hcall⟩ := labelCall_of_log hrun₂ (hlog ▸ List.mem_concat_self)
          obtain rfl := Option.some.inj (hl.symm.trans hi₂)
          exact reply_of_redis hrun₁ httl (by omega) henv hcall
        · exact henv.reply_of_ne_redis _ _ fun c hc => hredis ⟨c, hc⟩
      refine ⟨?_, hi₂, ?_⟩
      · rw [hevents]
        exact clean_append.mpr ⟨hclean₁, List.forall_mem_singleton.mpr hreply⟩
      · rw [hlog, hevents, List.length_append, List.length_append, List.length_singleton,
          List.length_singleton]
        omega
    | join j path =>
      obtain ⟨l, m, m₁, hm, -, rfl⟩ := System.step_join hstep
      refine ⟨hclean₁, ?_, hlength₁⟩
      rw [World.labels, System.map_fst_set hm]
      exact hi₁
    | tick n => exact ha.elim
    | spawn st => exact ha.elim
    | cancel j => exact ha.elim

/-- From every state that a run reaches, whatever other threads and clients have done, a request whose
client can be told, that nobody has abandoned and that no call has left without an answer can be
brought to its answer by its own steps, in at most eighteen in all, as soon as the services answer and
the counters have room. -/
theorem can_be_answered (hrun : d.system.Run (Action.Keeps i) start w)
    (hi : w.labels[i]? = some (.request exchange))
    (hclient : (resolveClientIp exchange).isSome = true)
    (hclean : Clean EndsUnanswered (w.events i))
    (httl : 0 < d.properties.blocklistTtlSeconds)
    (hsize : (w.log.length : ℤ) + 18 ≤ Store.maxCounter) (henv : Serves d env) :
    ∃ as w' s, d.system.exec as w = some w' ∧ (∀ a ∈ as, a.StepsThread i env) ∧
      as.length + (w.events i).length ≤ 18 ∧
      w'.threads = w.threads.set i (.request exchange, .done s) ∧
      AnswersLast (isAnswer · = true) (w'.events i) := by
  obtain ⟨as, w', s, hexec, hlength, hchosen, hended⟩ :=
    hrun.ends_within (within_body d) hi fun _ => env
  have hsteps : ∀ a ∈ as, a.StepsThread i env := by
    intro a ha
    obtain ⟨w₁, w₂, hstepOf⟩ := System.exists_stepOf hexec ha
    exact hchosen w₁ a w₂ hstepOf
  have hkeeps : ∀ a : Action Stimulus (Env K), a.StepsThread i env → a.Keeps i := by
    intro a ha
    cases a with
    | cancel j => exact ha.elim
    | _ => trivial
  have hafter := System.Run.of_exec hexec hsteps
  have hrun' : d.system.Run (Action.Keeps i) start w' := hrun.trans (hafter.mono hkeeps)
  have hi' : w'.threads[i]? = some (.request exchange, .done s) := by
    obtain ⟨m, hm⟩ := World.exists_thread hi
    rw [hended, List.getElem?_set_self (List.getElem?_eq_some_iff.mp hm).1]
  obtain ⟨hclean', -, -⟩ :=
    clean_of_steps (hrun.mono fun _ _ => trivial) hi hclean httl hsize henv hafter
  refine ⟨as, w', s, hexec, hsteps, hlength, hended, ?_⟩
  exact (answers_filter hclient (w'.events i) s (hrun'.trace_of_kept hi')
    (possible_events hrun' i)).1 hclean'

/-- The services of the sample answer. -/
theorem serves_sampleEnv : Serves sample sampleEnv where
  delivery := rfl
  succeeds := rfl
  decides := by simp [sample]
  score := by
    refine ⟨by simp [sampleEnv], fun result hresult => ?_⟩
    obtain rfl := Signal.value.inj hresult
    decide

/-- The first of the two requests, which has made one call, can be answered. -/
theorem twoRequests_answerable : ∃ as w' s, sample.system.exec as twoRequests = some w' ∧
    as.length + 1 ≤ 18 ∧
    w'.threads = twoRequests.threads.set 0
      (.request (sampleRequest "/api/auth/register" "10.0.0.1"), .done s) ∧
    AnswersLast (isAnswer · = true) (w'.events 0) := by
  have hrun : sample.system.Run (Action.Keeps 0) start twoRequests := by
    refine System.Run.after rfl ?_
    intro a ha
    cases a with
    | cancel j => simp [callTop] at ha
    | _ => trivial
  have hevents : twoRequests.events 0 = [lookup "10.0.0.1" (.value false)] := rfl
  have hclean : Clean EndsUnanswered (twoRequests.events 0) := by
    rw [hevents]
    exact clean_cons_top.mpr ⟨by simp [EndsUnanswered], clean_nil⟩
  obtain ⟨as, w', s, hexec, -, hlength, hended, hanswer⟩ :=
    can_be_answered hrun (show twoRequests.labels[0]? = some (.request _) from rfl) rfl hclean
      (by decide) (by decide +kernel) serves_sampleEnv
  rw [hevents] at hlength
  exact ⟨as, w', s, hexec, hlength, hended, hanswer⟩

end ApiFirewall.Guarantees
