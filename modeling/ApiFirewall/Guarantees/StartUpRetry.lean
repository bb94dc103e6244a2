import ApiFirewall.StartUp

/-!
# Recovery of the start-up loop

The first attempt at which the broker accepts the consumer's connection decides. If the producer's
connection is accepted too, the loop ends with both clients started. If it is refused, the consumer
stays started, every later attempt raises where it starts the consumer once more, and the loop never
ends. The indexer's loop, which starts one client, always recovers.
-/

namespace ApiFirewall.Guarantees

open ApiFirewall.Reactive
open Engine.KafkaConsumer

variable {σ τ : Type} {consumer : Client σ} {producer : Client τ}

/-- From the state in which only the consumer is started, the loop never ends. -/
theorem retry_of_consumerStarted (honce : consumer.StartsOnce) {s : σ × τ}
    (hs : ConsumerStarted consumer producer s) (attempts : List Connections) :
    (retry (startClients consumer producer) attempts s).1 = false :=
  (retry_raises (fun _ _ _ h => startClients_again honce h) hs).1

/-- From the state in which no client is started, the loop ends exactly if the first attempt at which
the consumer's connection is accepted refuses nothing. Then both clients are started. -/
theorem retry_of_noneStarted (hconsumer : consumer.Connects) (honce : consumer.StartsOnce)
    (hproducer : producer.Connects) (attempts : List Connections) {s : σ × τ}
    (hs : NoneStarted consumer producer s) :
    ((retry (startClients consumer producer) attempts s).1 = true ↔
      attempts.find? Connections.consumer = some .all) ∧
    ((retry (startClients consumer producer) attempts s).1 = true →
      BothStarted consumer producer (retry (startClients consumer producer) attempts s).2) := by
  induction attempts generalizing s with
  | nil => simp
  | cons c rest ih =>
    match c with
    | ⟨false, accepts⟩ =>
      obtain ⟨hraised, hnext⟩ :=
        startClients_consumer_refused (c := ⟨false, accepts⟩) hconsumer hs rfl
      rw [retry_cons_of_raised hraised]
      exact ih hnext
    | ⟨true, false⟩ =>
      obtain ⟨hraised, hnext⟩ := startClients_producer_refused hconsumer hproducer hs rfl
      have hnever := retry_of_consumerStarted honce hnext rest
      have hfind : (⟨true, false⟩ :: rest : List Connections).find? Connections.consumer ≠
          some .all := by
        intro h
        cases h
      rw [retry_cons_of_raised hraised, hnever]
      exact ⟨iff_of_false Bool.false_ne_true hfind, fun h => absurd h Bool.false_ne_true⟩
    | ⟨true, true⟩ =>
      obtain ⟨hreturned, hboth⟩ := startClients_accepted hconsumer hproducer hs
      rw [show (⟨true, true⟩ : Connections) = .all from rfl, retry_cons_of_returned hreturned]
      exact ⟨iff_of_true hreturned rfl, fun _ => hboth⟩

/-- Neither client is started when the loop begins. -/
theorem noneStarted_fresh (hconsumer : consumer.Connects) (hproducer : producer.Connects) :
    NoneStarted consumer producer (consumer.fresh, producer.fresh) :=
  ⟨hconsumer.fresh, hproducer.fresh⟩

/-- If one of the attempts that refused a connection accepted the consumer's, the loop never ends,
whatever the broker accepts afterwards. -/
theorem connect_never_returns (hconsumer : consumer.Connects) (honce : consumer.StartsOnce)
    (hproducer : producer.Connects) {history : List Connections}
    (hfailed : ∀ c ∈ history, c ≠ .all) (hrefused : ∃ c ∈ history, c.consumer = true)
    (further : List Connections) : (connect consumer producer (history ++ further)).1 = false := by
  have hiff := (retry_of_noneStarted hconsumer honce hproducer (history ++ further)
    (noneStarted_fresh hconsumer hproducer)).1
  obtain ⟨c, hfind⟩ := Option.isSome_iff_exists.mp (List.find?_isSome.mpr hrefused)
  rw [Bool.eq_false_iff]
  intro hreturned
  have hall := hiff.mp hreturned
  rw [List.find?_append, hfind, Option.some_or] at hall
  exact hfailed c (List.mem_of_find?_eq_some hfind) (Option.some.inj hall)

/-- After the history the loop is still running, and with the next attempt, at which the broker
accepts every connection, it ends with both clients started. -/
structure Recovers (consumer : Client σ) (producer : Client τ) (history : List Connections) :
    Prop where
  running : (connect consumer producer history).1 = false
  returns : (connect consumer producer (history ++ [.all])).1 = true
  started : BothStarted consumer producer (connect consumer producer (history ++ [.all])).2

/-- After a history of attempts that each refuse a connection, the loop recovers exactly if every
attempt refused the consumer's. -/
theorem recovers_iff (hconsumer : consumer.Connects) (honce : consumer.StartsOnce)
    (hproducer : producer.Connects) {history : List Connections}
    (hfailed : ∀ c ∈ history, c ≠ .all) :
    Recovers consumer producer history ↔ ∀ c ∈ history, c.consumer = false := by
  have hfresh := noneStarted_fresh hconsumer hproducer
  constructor
  · intro hrecovers c hc
    by_contra hconsumed
    have hnever := connect_never_returns hconsumer honce hproducer hfailed
      ⟨c, hc, eq_true_of_ne_false hconsumed⟩ [.all]
    rw [hrecovers.returns] at hnever
    cases hnever
  · intro hrefused
    have hnone : history.find? Connections.consumer = none :=
      List.find?_eq_none.mpr fun c hc => ne_true_of_eq_false (hrefused c hc)
    have hrunning := (retry_of_noneStarted hconsumer honce hproducer history hfresh).1
    have hreturns := retry_of_noneStarted hconsumer honce hproducer (history ++ [.all]) hfresh
    rw [hnone] at hrunning
    rw [List.find?_append, hnone, Option.none_or] at hreturns
    exact { running := Bool.eq_false_iff.mpr fun h => by cases hrunning.mp h
            returns := hreturns.1.mpr rfl
            started := hreturns.2 (hreturns.1.mpr rfl) }

/-- The loop recovers if the broker was not reachable for the consumer. -/
theorem recovers_unreachable :
    Recovers Client.once Client.once [⟨false, false⟩, ⟨false, true⟩] :=
  (recovers_iff Client.once_connects Client.once_startsOnce Client.once_connects
    (by decide)).mpr (by decide)

/-- One attempt that starts the consumer and not the producer keeps the loop from recovering. -/
theorem not_recovers_halfway :
    ¬ ∀ (consumer : Client Bool) (producer : Client Bool) (history : List Connections),
      consumer.Connects → consumer.StartsOnce → producer.Connects → (∀ c ∈ history, c ≠ .all) →
      Recovers consumer producer history := by
  intro h
  have hrecovers := h Client.once Client.once [⟨true, false⟩] Client.once_connects
    Client.once_startsOnce Client.once_connects (by decide)
  have hnever : (connect Client.once Client.once ([⟨true, false⟩] ++ [.all])).1 = false := by decide
  rw [hrecovers.returns] at hnever
  cases hnever

end ApiFirewall.Guarantees
