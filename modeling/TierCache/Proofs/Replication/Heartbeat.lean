import TierCache.Proofs.Json.Records
import TierCache.Replication.Heartbeat

/-!
Heartbeats reach the others as they were sent.
-/
namespace TierCache
open Json

namespace Replication.Heartbeat

theorem ofPayload_payload {h : Heartbeat} (ht : h.timestamp ≤ Text.maxUnsigned) :
    ofPayload h.payload = .ok h := by
  have hnodup : ["instanceId", "isPrimary", "timestamp"].Nodup := by decide
  have hrecord := @Raw.record_named [("instanceId", written (.str h.instanceId)),
    ("isPrimary", written (.bool h.isPrimary)), ("timestamp", written (.nat h.timestamp))] hnodup 3
  have hread : ofRaw (written h.toJson) = .ok h := by
    refine (congrArg (· >>= _) hrecord).trans ?_
    simp only [bind, Except.bind, List.map, Raw.needed, unsigned_written ht]
    rfl
  rw [ofPayload, payload, ofText_render, hread]

end Replication.Heartbeat
end TierCache
