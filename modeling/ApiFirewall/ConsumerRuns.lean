import ApiFirewall.Deployment
import ApiFirewall.Engine.MessageEffects
import ApiFirewall.Reactive.Conclusion

/-!
# Runs of the consumer

The consumer alone over a store that it finds in some state: each thread is one start of the loop
over the records that are delivered to it. A command that is answered has been carried out when it
was sent, so the store after a run without failures is the store of its log.
-/

namespace ApiFirewall

open ApiFirewall.Wire ApiFirewall.Gateway ApiFirewall.Engine ApiFirewall.KeyValue
open ApiFirewall.Reactive

namespace Deployment

variable {K : Type}

/-- The worlds of the consumer. -/
abbrev ConsumerState (K : Type) := World (Op K) Res (Store String) (List Bytes)

/-- The store after the commands of a log, each of them carried out when it was sent. -/
def storeFrom (s₀ : Store String) (log : List (Entry (Op K) Res)) : Store String :=
  log.foldl (fun s e => match e.event.op with
    | .redis c => (s.exec e.time c).2
    | _ => s) s₀

/-- One more command is carried out. -/
theorem storeFrom_concat_redis (s₀ : Store String) (log : List (Entry (Op K) Res))
    {e : Entry (Op K) Res} {c : Command String} (h : e.event.op = .redis c) :
    storeFrom s₀ (log ++ [e]) = ((storeFrom s₀ log).exec e.time c).2 := by
  simp [storeFrom, h]

/-- Other calls leave the store as it is. -/
theorem storeFrom_concat_other (s₀ : Store String) (log : List (Entry (Op K) Res))
    {e : Entry (Op K) Res} (h : ∀ c, e.event.op ≠ .redis c) :
    storeFrom s₀ (log ++ [e]) = storeFrom s₀ log := by
  unfold storeFrom
  rw [List.foldl_append, List.foldl_cons, List.foldl_nil]
  split
  · rename_i c hop
    exact absurd hop (h c)
  · rfl

/-- A command that does not fail has been answered. -/
theorem answered_of_reply {d : Deployment K} {env : Env K} {now : ℕ} {c : Command String}
    {s : Store String} (h : (d.handle env now (.redis c) s).1 ≠ .error) :
    env.delivery = .answered := by
  cases hdelivery : env.delivery with
  | answered => rfl
  | rejected => simp [handle, command, hdelivery] at h
  | lost => simp [handle, command, hdelivery] at h

variable [Field K] [LinearOrder K] [FloorRing K] {d : Deployment K}
  {deserialize : Bytes → Option (Json K)}

/-- The loops over the request stream, each started with the records that it is to work on. -/
def consumers (d : Deployment K) (deserialize : Bytes → Option (Json K)) :
    System (Op K) Res (Store String) (Env K) (List Bytes) (List Bytes) where
  body := KafkaConsumer.consumeLoop d.engine deserialize
  spawn := fun _ records => some records
  handle := d.handle

/-- The loop of one consumer has ended. -/
def Ended (w : ConsumerState K) (records : List Bytes) (s : Signal Unit) : Prop :=
  w.threads = [(records, .done s)]

/-- One consumer has worked through the records that it was started with. -/
def Finished (w : ConsumerState K) (records : List Bytes) : Prop := Ended w records (.value ())

omit [Field K] [LinearOrder K] [FloorRing K] in
/-- The records that a consumer was started with, and how its loop has ended. -/
def endedRecords (w : ConsumerState K) : Option (List Bytes × Signal Unit) :=
  match w.threads with
  | [(records, .done s)] => some (records, s)
  | _ => none

omit [Field K] [LinearOrder K] [FloorRing K] in
/-- That is how it has ended. -/
theorem ended_of_endedRecords {w : ConsumerState K} {records : List Bytes} {s : Signal Unit}
    (h : endedRecords w = some (records, s)) : Ended w records s := by
  unfold endedRecords at h
  split at h
  · rename_i records' s' hthreads
    obtain ⟨rfl, rfl⟩ := Prod.mk.inj (Option.some.inj h)
    exact hthreads
  · simp at h

/-- In a run without failures the store is the one that its log leads to. -/
theorem storeFrom_of_run {P : Action (List Bytes) (Env K) → Prop} {s₀ : Store String}
    {w : ConsumerState K} (hrun : (d.consumers deserialize).Run P (World.init s₀) w)
    (hall : ∀ e ∈ w.log, e.event.reply ≠ .error) : w.shared = storeFrom s₀ w.log := by
  revert hall
  refine hrun.log_rule (I := fun _ s (_ : List (List Bytes)) log =>
    (∀ e ∈ log, e.event.reply ≠ .error) → s = storeFrom s₀ log)
    (fun _ => rfl) (fun _ _ _ _ _ ih => ih) (fun _ _ _ _ _ _ _ _ ih => ih) ?_
  intro now s ls log i path env op records m' _ ih _ _ _ hall
  have hlog := ih fun e he => hall e (List.mem_append_left _ he)
  have hreply := hall _ (List.mem_append_right _ (List.mem_singleton_self _))
  by_cases hredis : ∃ c, op = .redis c
  · obtain ⟨c, rfl⟩ := hredis
    rw [storeFrom_concat_redis s₀ log rfl, ← hlog]
    exact congrArg Prod.snd (d.handle_redis (answered_of_reply hreply) now c s)
  · have hother : ∀ c, op ≠ .redis c := fun c hop => hredis ⟨c, hop⟩
    rw [storeFrom_concat_other s₀ log hother, ← hlog]
    exact d.handle_store env now s hother

/-- All calls in a run with one consumer are its own. -/
theorem events_of_ended {P : Action (List Bytes) (Env K) → Prop} {s₀ : Store String}
    {w : ConsumerState K} {records : List Bytes} {s : Signal Unit} (h : Ended w records s)
    (hrun : (d.consumers deserialize).Run P (World.init s₀) w) :
    w.events 0 = w.log.map Entry.event := by
  have hthread : ∀ e ∈ w.log, e.thread = 0 := by
    intro e he
    have hlt := hrun.coherent.thread_lt e he
    rw [h, List.length_singleton] at hlt
    exact Nat.lt_one_iff.mp hlt
  unfold World.events eventsOf
  rw [List.filter_eq_self.mpr fun e he => by simp [hthread e he]]

/-- All calls of a finished consumer are calls of its loop. -/
theorem Finished.events {P : Action (List Bytes) (Env K) → Prop} {s₀ : Store String}
    {w : ConsumerState K} {records : List Bytes} (h : Finished w records)
    (hrun : (d.consumers deserialize).Run P (World.init s₀) w) :
    w.events 0 = w.log.map Entry.event ∧
      Trace (KafkaConsumer.consumeLoop d.engine deserialize records) (w.log.map Entry.event)
        (.done (.value ())) := by
  have hevents := events_of_ended h hrun
  refine ⟨hevents, ?_⟩
  obtain ⟨m, htr, rfl | hm⟩ := hrun.coherent.trace 0 records (.done (.value ())) (by rw [h]; rfl)
  · exact hevents ▸ htr
  · simp at hm

/-- So are those of one whose loop has ended otherwise, if nobody has abandoned it. -/
theorem loopTrace_of_ended {s₀ : Store String} {w : ConsumerState K} {records : List Bytes}
    {s : Signal Unit} (h : Ended w records s)
    (hrun : (d.consumers deserialize).Run (Action.Keeps 0) (World.init s₀) w) :
    Trace (KafkaConsumer.consumeLoop d.engine deserialize records) (w.log.map Entry.event)
      (.done s) := by
  rw [← events_of_ended h hrun]
  exact hrun.trace_of_kept (by rw [h]; rfl)

/-- The text of a message about an ordinary request of a client. -/
def sampleText (client : String) : String :=
  "\x7b\"client_ip\":\"" ++ client ++ "\",\"signal\":\x7b\"req_rate_10s\":1.0,\"req_rate_60s\":1.0," ++
    "\"distinct_endpoints_60s\":1,\"failed_auth_streak\":0,\"session_age_seconds\":0.0," ++
    "\"geo_velocity_kmph\":0.0,\"known_bad_ua_flag\":0,\"response_error_rate_5m\":0.0," ++
    "\"off_hours_flag\":0\x7d\x7d"

/-- The message of that text. -/
def sampleMessage (client : String) : Json ℚ :=
  .obj
    [("client_ip", .str client),
     ("signal", .obj
       [("req_rate_10s", .real (.finite 1)), ("req_rate_60s", .real (.finite 1)),
        ("distinct_endpoints_60s", .int 1), ("failed_auth_streak", .int 0),
        ("session_age_seconds", .real (.finite 0)), ("geo_velocity_kmph", .real (.finite 0)),
        ("known_bad_ua_flag", .int 0), ("response_error_rate_5m", .real (.finite 0)),
        ("off_hours_flag", .int 0)])]

/-- The octets of a text. -/
def encodeUtf8 (s : String) : Bytes := s.toUTF8.data.toList

/-- The record of the message of a client. -/
def sampleRecord (client : String) : Bytes := encodeUtf8 (sampleText client)

/-- An octet that begins no character. -/
def malformedRecord : Bytes := [0xFF]

/-- The text of a message that is no envelope. -/
def arrayRecord : Bytes := encodeUtf8 "[]"

/-- A reader of the sample records. -/
def sampleDeserialize (record : Bytes) : Option (Json ℚ) :=
  if record = arrayRecord then some (.arr [])
  else (["10.0.0.9", "unknown"].find? fun client => sampleRecord client = record).map sampleMessage

/-- The record of the known client is read as its message. -/
theorem sampleDeserialize_known :
    sampleDeserialize (sampleRecord "10.0.0.9") = some (sampleMessage "10.0.0.9") := by
  have hne : sampleRecord "10.0.0.9" ≠ arrayRecord := by decide +kernel
  simp [sampleDeserialize, hne]

end Deployment

end ApiFirewall
