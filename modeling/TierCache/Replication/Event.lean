import TierCache.Engine.Basic

/-!
Events: the mutations of the cache as a primary publishes them on the replication topic. An event
that sets a key carries the whole value with its type and expiry, one that lets a key expire carries
the seconds.
-/
namespace TierCache.Replication
open Json

inductive EventKind
  | set
  | delete
  | expire
  | deleteRegion
  deriving DecidableEq, Repr

namespace EventKind

def tag : EventKind → String
  | set => "SET"
  | delete => "DELETE"
  | expire => "EXPIRE"
  | deleteRegion => "DELETE_REGION"

/-- The kinds by their names in events. -/
def tags : List (String × EventKind) :=
  [set, delete, expire, deleteRegion].map fun k => (k.tag, k)

end EventKind

structure Event where
  /-- Tells events apart; nothing depends on it. -/
  id : String
  kind : EventKind
  region : String
  key : String
  value : Option Json
  dataType : Option DataType
  expiresAt : Option Nat
  timestamp : Nat
  deriving DecidableEq

namespace Event

/-- The event that sets an entry whose value is written as this JSON. It holds the value apart from
its text. -/
def ofSet (id : String) (now : Nat) (e : Entry) (value : Json) : Event :=
  ⟨id, .set, e.region, e.key, some value.sorted, some e.dataType, e.expiresAt, now⟩

/-- The event that tells of a mutation. -/
def ofMutation (id : String) (now : Nat) : Mutation → Event
  | .set e => ofSet id now e e.value.toJson
  | .delete region key => ⟨id, .delete, region, key, none, none, none, now⟩
  | .expire region key seconds =>
    ⟨id, .expire, region, key, some (.int seconds), none, none, now⟩
  | .deleteRegion region => ⟨id, .deleteRegion, region, "*", none, none, none, now⟩

def toJson (e : Event) : Json :=
  .obj [("eventId", .str e.id), ("eventType", .str e.kind.tag), ("region", .str e.region),
    ("key", .str e.key), ("value", e.value.getD .null),
    ("dataType", .opt (fun t => .str t.tag) e.dataType), ("expiresAt", .opt .nat e.expiresAt),
    ("timestamp", .nat e.timestamp)]

def fields : List String :=
  ["eventId", "eventType", "region", "key", "value", "dataType", "expiresAt", "timestamp"]

/-- Any JSON that nests at most `room` deep. -/
def anyValue (room : Nat) (v : Raw) : Except Fault Json :=
  match v.value? room with
  | some j => .ok j
  | none => .error .malformed

/-- Reads an event. An object may leave out the value, its type and its expiry. -/
def ofRaw (room : Nat) (v : Raw) : Except Fault Event := do
  match ← v.record fields 8 with
  | [eventId, kind, region, key, value, dataType, expiresAt, timestamp] =>
    return {
      id := ← Raw.needed Raw.string eventId
      kind := ← Raw.needed (Raw.name EventKind.tags) kind
      region := ← Raw.needed Raw.string region
      key := ← Raw.needed Raw.string key
      value := ← Raw.orElse none (Raw.optional (anyValue (room - 1))) value
      dataType := ← Raw.orElse none (Raw.optional (Raw.name DataType.tags)) dataType
      expiresAt := ← Raw.orElse none (Raw.optional Raw.unsigned) expiresAt
      timestamp := ← Raw.needed Raw.unsigned timestamp }
  | _ => .error .mismatched

/-- The payload of a record on the replication topic. -/
def payload (e : Event) : String := e.toJson.render

def ofPayload (text : String) : Except CacheError Event :=
  match ofRaw Raw.maxDepth (Raw.ofText text) with
  | .ok e => .ok e
  | .error _ => .error .unreadable

/-- The value that an event sets. -/
def valueToSet (e : Event) : Except CacheError Value :=
  match e.value with
  | none => .error (.replication "SET event without value")
  | some j => match Value.ofRaw Raw.maxDepth j.raw with
    | .ok v => .ok v
    | .error _ => .error .unreadable

/-- The seconds after which an event lets a key expire. -/
def secondsToLive (e : Event) : Except CacheError Int :=
  match e.value with
  | some (.int n) =>
    if n < Text.signedLimit then .ok n else .error (.replication "EXPIRE event without seconds")
  | _ => .error (.replication "EXPIRE event without seconds")

end Event
end TierCache.Replication
