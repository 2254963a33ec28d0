import TierCache.Channel
import TierCache.Engine.Basic

/-!
Who is told what: the subscribers of all changes to the cache, and the subscribers of named channels
that carry messages.
-/
namespace TierCache
open Std

/-- A change to a key, or to a whole region when the key is a star. -/
structure ChangeEvent where
  region : String
  key : String
  kind : ChangeKind
  timestamp : Nat
  deriving DecidableEq, Repr

namespace ChangeEvent

/-- Whether the change concerns a region and, if one is given, a key. -/
def concerns (c : ChangeEvent) (region : String) (key : Option String) : Bool :=
  c.region = region && match key with
    | some key => c.key = "*" || c.key = key
    | none => true

def toJson (c : ChangeEvent) : Json :=
  .obj [("region", .str c.region), ("key", .str c.key), ("operation", .str c.kind.tag),
    ("timestamp", .nat c.timestamp)]

end ChangeEvent

structure Notifier where
  changes : Channel ChangeEvent
  channels : ExtTreeMap String (Channel String)

namespace Notifier

/-- The number of messages that each channel keeps. -/
def capacity : Nat := 1024

def empty : Notifier := ⟨.create capacity, ∅⟩

def publishChange (n : Notifier) (c : ChangeEvent) : Notifier :=
  { n with changes := (n.changes.publish c).2 }

/-- Publishes on a named channel and tells how many receivers it has. -/
def publish (n : Notifier) (channel message : String) : Nat × Notifier :=
  match n.channels[channel]? with
  | some c =>
    let (count, c) := c.publish message
    (count, { n with channels := n.channels.insert channel c })
  | none => (0, n)

/-- A new receiver of all changes. -/
def subscribe (n : Notifier) : Nat × Notifier :=
  let (receiver, changes) := n.changes.subscribe
  (receiver, { n with changes })

/-- A new receiver of a named channel, which is made if there is none. -/
def subscribeChannel (n : Notifier) (channel : String) : Nat × Notifier :=
  let (receiver, c) := (n.channels[channel]?.getD (.create capacity)).subscribe
  (receiver, { n with channels := n.channels.insert channel c })

def unsubscribe (n : Notifier) (receiver : Nat) : Notifier :=
  { n with changes := n.changes.unsubscribe receiver }

/-- Ends a subscription to a named channel; the channel stays. -/
def unsubscribeChannel (n : Notifier) (channel : String) (receiver : Nat) : Notifier :=
  { n with channels := n.channels.modify channel (·.unsubscribe receiver) }

/-- The changes that wait for a receiver. -/
def drain (n : Notifier) (receiver : Nat) : List (Delivery ChangeEvent) × Notifier :=
  let (ds, changes) := n.changes.drain receiver
  (ds, { n with changes })

/-- The messages that wait for a receiver of a named channel. -/
def drainChannel (n : Notifier) (channel : String) (receiver : Nat) :
    List (Delivery String) × Notifier :=
  match n.channels[channel]? with
  | some c =>
    let (ds, c) := c.drain receiver
    (ds, { n with channels := n.channels.insert channel c })
  | none => ([], n)

end Notifier
end TierCache
