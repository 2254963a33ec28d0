import TierCache.Channel

/-!
The log on which instances publish: one broadcast channel for each topic. Every subscriber of a
topic sees its records in the order in which they were published.
-/
namespace TierCache.Replication
open Std

/-- A record; records of one key are to be kept in order. -/
structure Record where
  key : String
  payload : String
  deriving DecidableEq, Repr

structure Log where
  /-- The number of records that each topic keeps. -/
  capacity : Nat
  topics : ExtTreeMap String (Channel Record)

/-- One subscription to a topic. -/
structure Subscription where
  topic : String
  receiver : Nat
  deriving DecidableEq, Repr

namespace Log

def defaultCapacity : Nat := 4096

def empty (capacity : Nat) : Log := ⟨capacity, ∅⟩

def channel (l : Log) (topic : String) : Channel Record :=
  l.topics[topic]?.getD (.create l.capacity)

def publish (l : Log) (topic : String) (r : Record) : Log :=
  { l with topics := l.topics.insert topic ((l.channel topic).publish r).2 }

/-- Subscribes to what is published on a topic from now on. -/
def subscribe (l : Log) (topic : String) : Subscription × Log :=
  let (receiver, c) := (l.channel topic).subscribe
  (⟨topic, receiver⟩, { l with topics := l.topics.insert topic c })

def unsubscribe (l : Log) (s : Subscription) : Log :=
  { l with topics := l.topics.modify s.topic (·.unsubscribe s.receiver) }

/-- The records that wait for a subscription. -/
def drain (l : Log) (s : Subscription) : List (Delivery Record) × Log :=
  let (ds, c) := (l.channel s.topic).drain s.receiver
  (ds, { l with topics := l.topics.insert s.topic c })

def hasWaiting (l : Log) (s : Subscription) : Bool := (l.channel s.topic).hasWaiting s.receiver

end Log
end TierCache.Replication
