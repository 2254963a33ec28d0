import TierCache.Value.SortedSet

/-!
The values a key can hold.
-/
namespace TierCache
open Std

inductive DataType
  | string
  | hash
  | list
  | set
  | sortedSet
  deriving DecidableEq, Repr

namespace DataType

/-- The name of the type in replies. -/
def name : DataType → String
  | string => "string"
  | hash => "hash"
  | list => "list"
  | set => "set"
  | sortedSet => "zset"

/-- The name of the type in records. -/
def tag : DataType → String
  | string => "STRING"
  | hash => "HASH"
  | list => "LIST"
  | set => "SET"
  | sortedSet => "SORTED_SET"

/-- The types by their names in records. -/
def tags : List (String × DataType) :=
  [string, hash, list, set, sortedSet].map fun t => (t.tag, t)

end DataType

/-- A list's head comes first. -/
inductive Value
  | string (text : String)
  | hash (fields : ExtTreeMap String String)
  | list (items : List String)
  | set (members : ExtTreeSet String)
  | sortedSet (members : SortedSet)
  deriving DecidableEq, Inhabited

namespace Value

def dataType : Value → DataType
  | string _ => .string
  | hash _ => .hash
  | list _ => .list
  | set _ => .set
  | sortedSet _ => .sortedSet

/-- The value of a type that holds nothing. -/
def empty : DataType → Value
  | .string => string ""
  | .hash => hash ∅
  | .list => list []
  | .set => set ∅
  | .sortedSet => sortedSet .empty

@[simp] theorem dataType_empty (t : DataType) : (empty t).dataType = t := by cases t <;> rfl

/-- True for a container without elements. A string is no container. -/
def isEmptyContainer : Value → Bool
  | string _ => false
  | hash h => h.isEmpty
  | list xs => xs.isEmpty
  | set s => s.isEmpty
  | sortedSet z => z.isEmpty

end Value
end TierCache
