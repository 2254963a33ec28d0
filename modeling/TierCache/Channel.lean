import Std.Data.ExtTreeMap

/-!
Broadcast channels. Every receiver gets, in order, the messages published after it subscribed. A
channel keeps only its newest messages; a receiver that falls further behind is told how many it
missed and goes on with the oldest one kept.
-/
namespace TierCache
open Std

structure Channel (α : Type) where
  /-- The number of messages that are kept. -/
  capacity : Nat
  /-- The number of messages published to at least one receiver. -/
  sent : Nat
  /-- The newest of these messages by their number. -/
  kept : ExtTreeMap Nat α
  /-- The number of the message that each receiver gets next. -/
  receivers : ExtTreeMap Nat Nat
  /-- The name of the next new receiver. -/
  next : Nat

/-- What a receiver gets: the number of messages it missed, or a message. -/
inductive Delivery (α : Type)
  | lagged (missed : Nat)
  | message (m : α)
  deriving DecidableEq, Repr

namespace Channel

variable {α : Type}

/-- The least power of two that is not below `n`. -/
def roundUp (n : Nat) : Nat := n.nextPowerOfTwo

/-- A channel without receivers. It keeps a power of two of messages. -/
def create (capacity : Nat) : Channel α := ⟨roundUp capacity, 0, ∅, ∅, 0⟩

def receiverCount (c : Channel α) : Nat := c.receivers.size

/-- Publishes a message to all receivers and tells how many there are. Without receivers nothing is
kept. -/
def publish (c : Channel α) (m : α) : Nat × Channel α :=
  if c.receivers.isEmpty then (0, c)
  else
    let kept := c.kept.insert c.sent m
    let kept := if c.capacity ≤ c.sent then kept.erase (c.sent - c.capacity) else kept
    (c.receivers.size, { c with sent := c.sent + 1, kept })

/-- A new receiver, which gets what is published from now on. -/
def subscribe (c : Channel α) : Nat × Channel α :=
  (c.next, { c with receivers := c.receivers.insert c.next c.sent, next := c.next + 1 })

def unsubscribe (c : Channel α) (receiver : Nat) : Channel α :=
  { c with receivers := c.receivers.erase receiver }

/-- The number of the oldest message kept. -/
def oldest (c : Channel α) : Nat := c.sent - c.capacity

/-- The messages kept from a number on. -/
def since (c : Channel α) (n : Nat) : List α :=
  (List.range' n (c.sent - n)).filterMap (c.kept[·]?)

/-- All that waits for a receiver; nothing waits for one that is not there. -/
def drain (c : Channel α) (receiver : Nat) : List (Delivery α) × Channel α :=
  match c.receivers[receiver]? with
  | none => ([], c)
  | some n =>
    let missed := c.oldest - n
    let waiting := (c.since (n + missed)).map Delivery.message
    ((if 0 < missed then .lagged missed :: waiting else waiting),
      { c with receivers := c.receivers.insert receiver c.sent })

/-- Whether something waits for a receiver. -/
def hasWaiting (c : Channel α) (receiver : Nat) : Bool :=
  match c.receivers[receiver]? with
  | some n => n < c.sent
  | none => false

end Channel

/-- The messages among deliveries. -/
def Delivery.messages {α : Type} (ds : List (Delivery α)) : List α :=
  ds.filterMap fun
    | .message m => some m
    | .lagged _ => none

end TierCache
