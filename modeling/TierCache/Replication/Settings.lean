/-!
What an instance is told about the cluster it belongs to. Times are in milliseconds.
-/
namespace TierCache.Replication

structure Settings where
  /-- An instance outside a cluster is primary for good. -/
  enabled : Bool
  instanceId : String
  startAsPrimary : Bool
  heartbeatInterval : Nat
  failoverTimeout : Nat
  startupWait : Nat
  /-- Whether an instance that sees no primary at its start becomes primary. -/
  autoPromote : Bool
  replicationTopic : String
  healthTopic : String
  deriving DecidableEq, Repr

namespace Settings

def defaultReplicationTopic : String := "regioncache-replication"

def defaultHealthTopic : String := "regioncache-health"

/-- An instance outside a cluster. -/
def standalone (instanceId : String) : Settings :=
  ⟨false, instanceId, true, 5000, 15000, 10000, true, defaultReplicationTopic, defaultHealthTopic⟩

/-- The role at the start. -/
def startsPrimary (s : Settings) : Bool := !s.enabled || s.startAsPrimary

end Settings
end TierCache.Replication
