import TierCache.Text.Integer
import TierCache.Value.Record

/-!
Entries: a key of a region with its value and its times, in milliseconds since 1970. An entry with
an expiry is expired from that moment on.
-/
namespace TierCache
open Json

structure Entry where
  region : String
  key : String
  value : Value
  createdAt : Nat
  /-- The last read or write. -/
  lastAccessedAt : Nat
  expiresAt : Option Nat
  /-- Whether this copy is held in memory. -/
  resident : Bool
  deriving DecidableEq, Inhabited

namespace Entry

/-- A new entry, created and used now. -/
def create (now : Nat) (region key : String) (value : Value) (expiresAt : Option Nat) : Entry :=
  ⟨region, key, value, now, now, expiresAt, false⟩

def dataType (e : Entry) : DataType := e.value.dataType

def isExpired (e : Entry) (now : Nat) : Bool :=
  match e.expiresAt with
  | some t => t ≤ now
  | none => false

/-- The milliseconds left, zero once expired; none without an expiry. -/
def timeLeft (e : Entry) (now : Nat) : Option Nat := e.expiresAt.map (· - now)

/-- The whole seconds left: -1 without an expiry, -2 when less than one second is left. -/
def secondsLeft (e : Entry) (now : Nat) : Int :=
  match e.timeLeft now with
  | none => -1
  | some ms => if 0 < ms / 1000 then (ms / 1000 : Nat) else -2

/-- The entry as used now. -/
def touch (e : Entry) (now : Nat) : Entry := { e with lastAccessedAt := now }

/-- The record of an entry around its value as it is written. -/
def record (e : Entry) (value : Json) : Json :=
  .obj [("region", .str e.region), ("key", .str e.key), ("value", value),
    ("createdAt", .nat e.createdAt), ("lastAccessedAt", .nat e.lastAccessedAt),
    ("expiresAt", .opt .nat e.expiresAt), ("residentInMemory", .bool e.resident)]

def toJson (e : Entry) : Json := e.record e.value.toJson

/-- What an entry may be written as. -/
inductive Written (e : Entry) : Json → Prop
  | intro {value : Json} (held : e.value.Written value) : Written e (e.record value)

theorem written_toJson (e : Entry) : e.Written e.toJson := .intro e.value.written_toJson

/-- The fields of an entry's record, in order. -/
def fields : List String :=
  ["region", "key", "value", "createdAt", "lastAccessedAt", "expiresAt", "residentInMemory"]

/-- Reads an entry. The record may leave out whether the entry is resident, and an object may leave
out the expiry. -/
def ofRaw (room : Nat) (v : Raw) : Except Fault Entry := do
  match ← v.record fields 6 with
  | [region, key, value, createdAt, lastAccessedAt, expiresAt, resident] =>
    return {
      region := ← Raw.needed Raw.string region
      key := ← Raw.needed Raw.string key
      value := ← Raw.needed (Value.ofRaw (room - 1)) value
      createdAt := ← Raw.needed Raw.unsigned createdAt
      lastAccessedAt := ← Raw.needed Raw.unsigned lastAccessedAt
      expiresAt := ← Raw.orElse none (Raw.optional Raw.unsigned) expiresAt
      resident := ← Raw.orElse false Raw.boolean resident }
  | _ => .error .mismatched

def ofText (text : String) : Except Fault Entry := ofRaw Raw.maxDepth (Raw.ofText text)

end Entry
end TierCache
