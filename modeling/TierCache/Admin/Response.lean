import TierCache.Engine.Regions
import TierCache.Replication.Member
import TierCache.Text.Timestamp

/-!
Responses of the admin interface.
-/
namespace TierCache

/-- The status under which an error is answered. -/
def CacheError.status : CacheError → Nat
  | .notFound _ => 404
  | .invalidRequest _ | .malformedLine _ | .notInteger | .defaultRegion _ => 400
  | .wrongType => 409
  | .store _ | .replication _ => 503
  | .internal _ => 500

/-- The body of an error. -/
def CacheError.toJson (e : CacheError) : Json := .obj [("error", .str e.message)]

/-- A key with its value and the seconds it has left. -/
def Entry.describe (e : Entry) (now : Nat) : Json :=
  .obj [("region", .str e.region), ("key", .str e.key), ("data_type", .str e.dataType.tag),
    ("value", e.value.toJson), ("ttl", .int (e.secondsLeft now)), ("created_at", .nat e.createdAt),
    ("last_accessed_at", .nat e.lastAccessedAt), ("resident_in_memory", .bool e.resident)]

def RegionCounts.toJson (c : RegionCounts) : Json :=
  .obj [("name", .str c.name), ("total_keys", .nat c.total), ("memory_keys", .nat c.memory),
    ("store_keys", .nat c.stored)]

def Snapshot.toJson (s : Snapshot) : Json :=
  .obj [("hits", .nat s.stats.hits), ("misses", .nat s.stats.misses),
    ("evictions", .nat s.stats.evictions), ("resident_entries", .nat s.resident),
    ("known_keys", .nat s.known), ("max_memory_objects", .nat s.capacity),
    ("hit_rate", .float s.stats.hitRate)]

namespace Admin

structure Response where
  status : Nat
  /-- The body, if there is one and it is JSON. -/
  body : Option Json
  /-- The origins that may read the response. -/
  allowOrigin : String
  deriving DecidableEq

namespace Response

/-- Every origin may read every response. -/
def anyOrigin : String := "*"

def ok (body : Json) : Response := ⟨200, some body, anyOrigin⟩

/-- A response without JSON. -/
def bare (status : Nat) : Response := ⟨status, none, anyOrigin⟩

def ofError (e : CacheError) : Response := ⟨e.status, some e.toJson, anyOrigin⟩

def invalid (why : String) : Response := ofError (.invalidRequest why)

/-- The outcome of a change. -/
def message (text region : String) (key : Option String) : Response :=
  ok (.obj ([("message", .str text), ("region", .str region)] ++
    (key.map fun key => ("key", Json.str key)).toList))

end Response
end Admin
end TierCache
