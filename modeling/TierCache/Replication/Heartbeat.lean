import TierCache.Error
import TierCache.Json.Read

/-!
Heartbeats: signs of life that every instance publishes on the health topic.
-/
namespace TierCache.Replication
open Json

structure Heartbeat where
  instanceId : String
  isPrimary : Bool
  timestamp : Nat
  deriving DecidableEq, Repr

namespace Heartbeat

def toJson (h : Heartbeat) : Json :=
  .obj [("instanceId", .str h.instanceId), ("isPrimary", .bool h.isPrimary),
    ("timestamp", .nat h.timestamp)]

def ofRaw (v : Raw) : Except Fault Heartbeat := do
  match ← v.record ["instanceId", "isPrimary", "timestamp"] 3 with
  | [instanceId, isPrimary, timestamp] =>
    return ⟨← Raw.needed Raw.string instanceId, ← Raw.needed Raw.boolean isPrimary,
      ← Raw.needed Raw.unsigned timestamp⟩
  | _ => .error .mismatched

/-- The payload of a record on the health topic. -/
def payload (h : Heartbeat) : String := h.toJson.render

def ofPayload (text : String) : Except CacheError Heartbeat :=
  match ofRaw (Raw.ofText text) with
  | .ok h => .ok h
  | .error _ => .error .unreadable

end Heartbeat
end TierCache.Replication
