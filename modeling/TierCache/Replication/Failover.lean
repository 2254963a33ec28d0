import Std.Data.ExtTreeMap
import TierCache.Replication.Heartbeat
import TierCache.Text.Integer

/-!
What an instance knows of the others, and how it decides whether the primary is gone and who takes
its place. Every decision is given the time in milliseconds; a time that lies ahead counts as now.
-/
namespace TierCache.Replication
open Std

structure Failover where
  instanceId : String
  failoverTimeout : Nat
  startupWait : Nat
  startedAt : Nat
  /-- When each instance was last heard, this one included. -/
  peers : ExtTreeMap String Nat
  primaryId : Option String
  lastPrimaryBeat : Option Nat
  deriving DecidableEq

namespace Failover

def create (instanceId : String) (failoverTimeout startupWait startedAt : Nat) : Failover :=
  ⟨instanceId, failoverTimeout, startupWait, startedAt, ∅, none, none⟩

/-- Takes note of a heartbeat received now. -/
def observe (f : Failover) (h : Heartbeat) (now : Nat) : Failover :=
  let f := { f with peers := f.peers.insert h.instanceId now }
  if h.isPrimary then { f with primaryId := some h.instanceId, lastPrimaryBeat := some now } else f

/-- The instances that were heard, in order of their identifiers, and when. -/
def peersJson (peers : List (String × Nat)) : Json :=
  .arr (peers.map fun (id, seen) => .obj [("instance_id", .str id), ("last_seen", .nat seen)])

/-- Whether no primary was heard for longer than the timeout, counted from the start if there never
was one. -/
def shouldFailover (f : Failover) (now : Nat) : Bool :=
  f.failoverTimeout < now - f.lastPrimaryBeat.getD f.startedAt

/-- The instances heard within the timeout, in order. -/
def livePeers (f : Failover) (now : Nat) : List String :=
  (f.peers.toList.filter fun peer => now - peer.2 ≤ f.failoverTimeout).map (·.1)

/-- The winner of an election: the least identifier among this instance and its live peers. -/
def elect (f : Failover) (now : Nat) : String :=
  (f.livePeers now).foldl (fun best id => if id < best then id else best) f.instanceId

def winsElection (f : Failover) (now : Nat) : Bool := f.elect now = f.instanceId

/-- Whether there never was a primary, or it was not heard within the timeout. -/
def primaryMissing (f : Failover) (now : Nat) : Bool :=
  match f.lastPrimaryBeat with
  | none => true
  | some seen => f.failoverTimeout < now - seen

/-- Whether the time of grace after the start is over and no primary is there. -/
def startupCheck (f : Failover) (now : Nat) : Bool :=
  f.startupWait ≤ now - f.startedAt && f.primaryMissing now

/-- Forgets the instances not heard for twice the timeout, and counts them. -/
def prune (f : Failover) (now : Nat) : Nat × Failover :=
  let window := Text.mulCapped f.failoverTimeout 2
  let peers := f.peers.filter fun _ seen => now - seen ≤ window
  (f.peers.size - peers.size, { f with peers })

/-- Takes note that this instance became primary now. -/
def promoted (f : Failover) (now : Nat) : Failover :=
  { f with primaryId := some f.instanceId, lastPrimaryBeat := some now }

end Failover
end TierCache.Replication
