import TierCache.Replication.Failover
import TierCache.Replication.Settings

/-!
An instance as a member of the cluster: its role, and what it knows of the others. A secondary
becomes primary when the primary is gone and it wins the election, or when there is none after the
time of grace; a primary stays primary. Each promotion is announced by a heartbeat.

The time that a decision is given may differ from the clock, which only dates the heartbeats.
-/
namespace TierCache.Replication

structure Member where
  settings : Settings
  isPrimary : Bool
  failover : Failover
  deriving DecidableEq

/-- What a member tells of itself and of the others, in order of their identifiers. -/
structure Status where
  enabled : Bool
  instanceId : String
  isPrimary : Bool
  primaryId : Option String
  /-- The other members and when they were last heard. -/
  peers : List (String × Nat)
  deriving DecidableEq, Repr

namespace Member

/-- A member that joins now. -/
def join (s : Settings) (now : Nat) : Member :=
  ⟨s, s.startsPrimary, .create s.instanceId s.failoverTimeout s.startupWait now⟩

/-- The heartbeat of this moment. -/
def heartbeat (m : Member) (clock : Nat) : Heartbeat := ⟨m.settings.instanceId, m.isPrimary, clock⟩

/-- Makes the member primary. -/
def promote (m : Member) (now clock : Nat) : Option Heartbeat × Member :=
  if m.isPrimary then (none, m)
  else
    let m := { m with isPrimary := true, failover := m.failover.promoted now }
    (some (m.heartbeat clock), m)

/-- Promotes a secondary that wins the election after the primary fell silent. -/
def checkFailover (m : Member) (now clock : Nat) : Option Heartbeat × Member :=
  if !m.isPrimary && m.failover.shouldFailover now && m.failover.winsElection now then
    m.promote now clock
  else (none, m)

/-- Promotes a secondary that saw no primary after its start. -/
def checkStartup (m : Member) (now clock : Nat) : Option Heartbeat × Member :=
  if !m.isPrimary && m.settings.autoPromote && m.failover.startupCheck now then m.promote now clock
  else (none, m)

/-- Hears a heartbeat, which may show that the primary is gone. -/
def hear (m : Member) (h : Heartbeat) (now : Nat) : Option Heartbeat × Member :=
  { m with failover := m.failover.observe h now }.checkFailover now now

/-- Forgets members not heard for long. -/
def forget (m : Member) (now : Nat) : Member := { m with failover := (m.failover.prune now).2 }

def status (m : Member) : Status :=
  let itself := if m.isPrimary then some m.settings.instanceId else none
  ⟨m.settings.enabled, m.settings.instanceId, m.isPrimary, m.failover.primaryId.or itself,
    m.failover.peers.toList⟩

end Member

def Status.toJson (s : Status) : Json :=
  .obj [("enabled", .bool s.enabled), ("instance_id", .str s.instanceId),
    ("is_primary", .bool s.isPrimary), ("primary_id", .opt .str s.primaryId),
    ("peers", Failover.peersJson s.peers)]

end TierCache.Replication
