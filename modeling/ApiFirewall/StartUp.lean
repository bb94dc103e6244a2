import ApiFirewall.Reactive.Retry
import Mathlib.Data.List.Basic

/-!
# Connecting to the message broker

The consumer of requests starts two clients, the one that reads and the one that writes, in one
block that it retries as a whole. The indexer starts one. A client is started if the broker accepts
its connection; starting it again raises.
-/

namespace ApiFirewall

open ApiFirewall.Reactive

/-- A client of the broker: the state in which it is built, what starting it does if the broker
accepts or refuses the connection, and when it is started. -/
structure Client (σ : Type) where
  fresh : σ
  start : Attempt Bool σ
  started : σ → Bool

namespace Client

variable {σ : Type} (client : Client σ)

/-- Starting a client that is not started makes it started exactly if the connection is accepted,
and raises otherwise. -/
structure Connects : Prop where
  fresh : client.started client.fresh = false
  accepted : ∀ s, client.started s = false →
    (client.start true s).1 = true ∧ client.started (client.start true s).2 = true
  refused : ∀ s, client.started s = false →
    (client.start false s).1 = false ∧ client.started (client.start false s).2 = false

/-- Starting a started client raises and leaves it started. -/
def StartsOnce : Prop := ∀ accepts s, client.started s = true →
  (client.start accepts s).1 = false ∧ client.started (client.start accepts s).2 = true

/-- A client that knows whether it is started. -/
def once : Client Bool where
  fresh := false
  start := fun accepts started => if started then (false, true) else (accepts, accepts)
  started := id

theorem once_connects : once.Connects where
  fresh := rfl
  accepted := by decide
  refused := by decide

theorem once_startsOnce : once.StartsOnce := by
  unfold StartsOnce
  decide

end Client

/-- Which connections the broker accepts during an attempt. -/
structure Connections where
  consumer : Bool
  producer : Bool
  deriving DecidableEq, Repr

/-- The broker accepts every connection. -/
def Connections.all : Connections := ⟨true, true⟩

namespace Engine.KafkaConsumer

variable {σ τ : Type} (consumer : Client σ) (producer : Client τ)

/-- Start the consumer, then the producer. -/
def startClients : Attempt Connections (σ × τ) :=
  (consumer.start.within Connections.consumer).onFst.andThen
    (producer.start.within Connections.producer).onSnd

/-- Start both clients until one attempt succeeds. -/
def connect (attempts : List Connections) : Bool × σ × τ :=
  retry (startClients consumer producer) attempts (consumer.fresh, producer.fresh)

/-- Neither client is started. -/
def NoneStarted (s : σ × τ) : Prop :=
  consumer.started s.1 = false ∧ producer.started s.2 = false

/-- Only the consumer is started. -/
def ConsumerStarted (s : σ × τ) : Prop :=
  consumer.started s.1 = true ∧ producer.started s.2 = false

/-- Both clients are started. -/
def BothStarted (s : σ × τ) : Prop :=
  consumer.started s.1 = true ∧ producer.started s.2 = true

section Step

variable {consumer : Client σ} {producer : Client τ} {s : σ × τ} {c : Connections}

/-- A consumer that starts leaves the attempt to the producer. -/
theorem startClients_of_returned (h : (consumer.start c.consumer s.1).1 = true) :
    startClients consumer producer c s =
      ((producer.start c.producer s.2).1, (consumer.start c.consumer s.1).2,
        (producer.start c.producer s.2).2) :=
  Attempt.andThen_of_returned h

/-- A consumer that raises ends the attempt, and the producer is as it was. -/
theorem startClients_of_raised (h : (consumer.start c.consumer s.1).1 = false) :
    startClients consumer producer c s = (false, (consumer.start c.consumer s.1).2, s.2) := by
  have hfirst : (((consumer.start.within Connections.consumer).onFst : Attempt _ (σ × τ)) c s).1 =
      false := h
  rw [startClients, Attempt.andThen_of_raised hfirst]
  exact Prod.ext h rfl

/-- An attempt that fails at the consumer's connection leaves neither client started. -/
theorem startClients_consumer_refused (hconsumer : consumer.Connects)
    (hs : NoneStarted consumer producer s) (hc : c.consumer = false) :
    (startClients consumer producer c s).1 = false ∧
      NoneStarted consumer producer (startClients consumer producer c s).2 := by
  obtain ⟨hraised, hnot⟩ := hconsumer.refused s.1 hs.1
  have hstart : consumer.start c.consumer s.1 = consumer.start false s.1 := by rw [hc]
  rw [startClients_of_raised (by rw [hstart, hraised]), hstart]
  exact ⟨rfl, hnot, hs.2⟩

/-- An attempt that fails at the producer's connection leaves the consumer started. -/
theorem startClients_producer_refused (hconsumer : consumer.Connects) (hproducer : producer.Connects)
    (hs : NoneStarted consumer producer s) (hc : c = ⟨true, false⟩) :
    (startClients consumer producer c s).1 = false ∧
      ConsumerStarted consumer producer (startClients consumer producer c s).2 := by
  subst hc
  obtain ⟨hreturned, hstarted⟩ := hconsumer.accepted s.1 hs.1
  obtain ⟨hraised, hnot⟩ := hproducer.refused s.2 hs.2
  rw [startClients_of_returned hreturned]
  exact ⟨hraised, hstarted, hnot⟩

/-- An attempt without refusals starts both clients, if neither is started. -/
theorem startClients_accepted (hconsumer : consumer.Connects) (hproducer : producer.Connects)
    (hs : NoneStarted consumer producer s) :
    (startClients consumer producer .all s).1 = true ∧
      BothStarted consumer producer (startClients consumer producer .all s).2 := by
  obtain ⟨hreturned, hstarted⟩ := hconsumer.accepted s.1 hs.1
  obtain ⟨hreturned', hstarted'⟩ := hproducer.accepted s.2 hs.2
  rw [startClients_of_returned (c := .all) hreturned]
  exact ⟨hreturned', hstarted, hstarted'⟩

/-- An attempt with a started consumer fails, and the producer does not get its turn. -/
theorem startClients_again (honce : consumer.StartsOnce) (hs : ConsumerStarted consumer producer s) :
    (startClients consumer producer c s).1 = false ∧
      ConsumerStarted consumer producer (startClients consumer producer c s).2 := by
  obtain ⟨hraised, hstarted⟩ := honce c.consumer s.1 hs.1
  rw [startClients_of_raised hraised]
  exact ⟨rfl, hstarted, hs.2⟩

end Step

end Engine.KafkaConsumer

namespace Indexer.AuditIndexer

/-- Start the consumer of audit events until one attempt succeeds. -/
def connect {σ : Type} (consumer : Client σ) (attempts : List Bool) : Bool × σ :=
  retry consumer.start attempts consumer.fresh

/-- The indexer recovers from every sequence of refused connections. -/
theorem connect_recovers {σ : Type} {consumer : Client σ} (h : consumer.Connects)
    {history : List Bool} (hfailed : ∀ accepts ∈ history, accepts = false) :
    (connect consumer (history ++ [true])).1 = true ∧
      consumer.started (connect consumer (history ++ [true])).2 = true := by
  have hstep : ∀ accepts ∈ history, ∀ s, consumer.started s = false →
      (consumer.start accepts s).1 = false ∧
        consumer.started (consumer.start accepts s).2 = false := by
    intro accepts hmem s hs
    rw [hfailed accepts hmem]
    exact h.refused s hs
  obtain ⟨s, hs, hlast⟩ := retry_recovers hstep h.fresh fun s hs => (h.accepted s hs).1
  rw [connect, hlast]
  exact h.accepted s hs

end Indexer.AuditIndexer

end ApiFirewall
