import TierCache.Clock
import TierCache.Notifier
import TierCache.Replication.Event
import TierCache.Replication.Frame
import TierCache.Replication.Member
import TierCache.Text.Uuid

/-!
One instance of the cache: the engine, those who listen to it, and its place in the cluster. What it
publishes on the replication log waits in its outbox.
-/
namespace TierCache
open Replication

structure Instance (σ : Type) where
  engine : Engine σ
  notifier : Notifier
  /-- Whether the notifier hears of the engine's changes. -/
  notifies : Bool
  /-- Whether the engine's mutations are published while the instance is primary. -/
  publishes : Bool
  member : Member
  /-- The reading of the steady clock at the start. -/
  startedAt : Nat
  /-- The number of events published so far. -/
  events : Nat
  /-- What was published and not yet passed on, the oldest first. -/
  outbox : List Frame

namespace Instance

variable {σ : Type}

/-- An instance that starts now. -/
def start (engine : Engine σ) (settings : Settings) (notifies publishes : Bool) (clock : Clock) :
    Instance σ :=
  ⟨engine, .empty, notifies, publishes, .join settings clock.wall, clock.steady, 0, []⟩

def settings (i : Instance σ) : Settings := i.member.settings

def post (i : Instance σ) (topic key payload : String) : Instance σ :=
  { i with outbox := i.outbox ++ [⟨topic, key, payload⟩] }

/-- Publishes a mutation as an event under its key, unless the instance is secondary. -/
def publish (i : Instance σ) (now : Nat) (m : Mutation) : Instance σ :=
  if i.publishes && i.member.isPrimary then
    let e := Event.ofMutation (Text.uuid i.events) now m
    { i with events := i.events + 1 }.post i.settings.replicationTopic e.key e.payload
  else i

/-- Tells the notifier of a change. -/
def notify (i : Instance σ) (c : ChangeEvent) : Instance σ :=
  if i.notifies then { i with notifier := i.notifier.publishChange c } else i

/-- Passes on one thing that the engine told. -/
def relay (now : Nat) (i : Instance σ) : Signal → Instance σ
  | .mutation m => i.publish now m
  | .change region key kind => i.notify ⟨region, key, kind, now⟩

/-- Passes on all that the engine told, in order. -/
def relayAll (i : Instance σ) (now : Nat) : Instance σ :=
  i.engine.signals.foldl (relay now) { i with engine := { i.engine with signals := [] } }

/-- Runs an operation of the engine and passes on what it told. -/
def run {α : Type} (i : Instance σ) (now : Nat) (op : Engine σ → α × Engine σ) :
    α × Instance σ :=
  let (result, engine) := op i.engine
  (result, { i with engine }.relayAll now)

end Instance
end TierCache
