import TierCache.Instance.Follow

/-!
A cluster: instances with one log and one pair of clocks between them, and the timers of the tasks
that run in their background.
-/
namespace TierCache
open Replication

/-- What an instance does in the background when its time has come. -/
inductive Task
  /-- Publishes a heartbeat and looks after the primary, each time a period has passed. -/
  | beat (period : Nat)
  /-- Forgets the instances not heard for long, each time a period has passed. -/
  | forget (period : Nat)
  /-- Looks for a primary once. -/
  | startup
  /-- Sweeps expired keys, and again some time after that. -/
  | sweep (pause : Nat)
  deriving DecidableEq, Repr

/-- A task that waits for the steady clock. -/
structure Timer where
  due : Nat
  /-- The number of the instance. -/
  owner : Nat
  /-- How many waits began before this one. -/
  turn : Nat
  task : Task
  deriving DecidableEq, Repr

namespace Timer

/-- The order in which timers that are due at one moment run: by the time they were due, then by
instance, then by the beginning of their wait. -/
def le (a b : Timer) : Bool :=
  if a.due ≠ b.due then a.due < b.due
  else if a.owner ≠ b.owner then a.owner < b.owner
  else a.turn ≤ b.turn

end Timer

/-- The subscriptions by which an instance hears of the others. -/
structure Follower where
  /-- The number of the instance. -/
  owner : Nat
  events : Subscription
  beats : Subscription
  deriving DecidableEq, Repr

structure Cluster (σ : Type) where
  /-- The instances by number. -/
  instances : Array (Instance σ)
  log : Log
  clock : Clock
  timers : List Timer
  followers : List Follower
  /-- The number of waits that began so far. -/
  turns : Nat

namespace Cluster

variable {σ : Type}

/-- Instances that have no task yet. -/
def ofInstances (instances : Array (Instance σ)) (clock : Clock) : Cluster σ :=
  ⟨instances, .empty Log.defaultCapacity, clock, [], [], 0⟩

/-- Puts an instance in its place; what waits in its outbox goes to the log. -/
def put (c : Cluster σ) (k : Nat) (i : Instance σ) : Cluster σ :=
  { c with
    instances := c.instances.setIfInBounds k { i with outbox := [] }
    log := i.outbox.foldl (fun log f => f.deliver log) c.log }

/-- Lets an instance act, if there is one of the number. -/
def act {α : Type} (c : Cluster σ) (k : Nat) (act : Clock → Instance σ → α × Instance σ) :
    Option α × Cluster σ :=
  match c.instances[k]? with
  | none => (none, c)
  | some i =>
    let (result, i) := act c.clock i
    (some result, c.put k i)

/-- Lets an instance change by itself. -/
def update (c : Cluster σ) (k : Nat) (change : Clock → Instance σ → Instance σ) : Cluster σ :=
  (c.act k fun clock i => ((), change clock i)).2

/-- Begins a wait until the steady clock shows `due`. -/
def arm (c : Cluster σ) (k due : Nat) (task : Task) : Cluster σ :=
  { c with timers := ⟨due, k, c.turns, task⟩ :: c.timers, turns := c.turns + 1 }

end Cluster
end TierCache
