import TierCache.Json.Read
import TierCache.Value.Basic

/-!
Values as JSON: an object of a `type` and its `data`. The fields of a hash and the members of a set
have no order of their own: a value may be written with them in any, and `data` takes that of their
names.
-/
namespace TierCache
open Std Json

def ScoredMember.toJson (m : ScoredMember) : Json :=
  .obj [("member", .str m.member), ("score", .float m.score)]

def ScoredMember.ofRaw (v : Raw) : Except Fault ScoredMember := do
  match ← v.record ["member", "score"] 2 with
  | [member, score] => return ⟨← Raw.needed Raw.string member, ← Raw.needed Raw.float score⟩
  | _ => .error .mismatched

namespace Value

/-- The contents of a value, without its type. -/
def data : Value → Json
  | string s => .str s
  | hash h => .obj (h.toList.map fun (k, v) => (k, .str v))
  | list xs => .arr (xs.map .str)
  | set s => .arr (s.toList.map .str)
  | sortedSet z => .arr (z.toList.map ScoredMember.toJson)

def toJson (v : Value) : Json := .obj [("type", .str v.dataType.tag), ("data", v.data)]

/-- What the contents of a value may be written as. -/
inductive Data : Value → Json → Prop
  | string (text : String) : Data (.string text) (.str text)
  | hash {h : ExtTreeMap String String} {fields : List (String × String)}
      (order : fields.Perm h.toList) :
      Data (.hash h) (.obj (fields.map fun (k, v) => (k, .str v)))
  | list (items : List String) : Data (.list items) (.arr (items.map .str))
  | set {s : ExtTreeSet String} {members : List String} (order : members.Perm s.toList) :
      Data (.set s) (.arr (members.map .str))
  | sortedSet (z : SortedSet) : Data (.sortedSet z) (.arr (z.toList.map ScoredMember.toJson))

/-- What a value may be written as. -/
inductive Written (v : Value) : Json → Prop
  | intro {data : Json} (contents : v.Data data) :
      Written v (.obj [("type", .str v.dataType.tag), ("data", data)])

theorem data_data (v : Value) : v.Data v.data := by
  cases v with
  | string text => exact .string text
  | hash h => exact .hash (.refl h.toList)
  | list items => exact .list items
  | set s => exact .set (.refl s.toList)
  | sortedSet z => exact .sortedSet z

theorem written_toJson (v : Value) : v.Written v.toJson := .intro v.data_data

/-- Contents of a type. Repeated fields and members count once, the last one wins. -/
def ofData (t : DataType) (v : Raw) : Except Fault Value :=
  match t with
  | .string => v.string.map string
  | .hash => (v.pairs Raw.string).map fun ps => hash (ExtTreeMap.ofList ps)
  | .list => (v.array Raw.string).map list
  | .set => (v.array Raw.string).map fun xs => set (ExtTreeSet.ofList xs)
  | .sortedSet => (v.array ScoredMember.ofRaw).map fun ms => sortedSet (.ofList ms)

/-- What the members of a value's object have shown so far. Data that comes before its type is kept
until the type is known. -/
inductive Partial
  | nothing
  | typed (t : DataType)
  | pending (data : Raw)
  | whole (v : Value)

/-- The value in the members of an object. Data that has to wait for its type must be JSON that
nests at most `room` deep, whatever its type turns out to be. -/
def ofMembers (room : Nat) : Partial → List (Option String × Raw) → Except Fault Value
  | .whole v, [] => .ok v
  | _, [] => .error .mismatched
  | _, (none, _) :: _ => .error .malformed
  | p, (some k, v) :: rest =>
    if k = "type" then
      match p with
      | .nothing => do ofMembers room (.typed (← v.name DataType.tags)) rest
      | .pending d => do ofMembers room (.whole (← ofData (← v.name DataType.tags) d)) rest
      | _ => .error .mismatched
    else if k = "data" then
      match p with
      | .nothing =>
        if (v.value? room).isSome then ofMembers room (.pending v) rest else .error .malformed
      | .typed t => do ofMembers room (.whole (← ofData t v)) rest
      | _ => .error .mismatched
    else if v.complete then ofMembers room p rest
    else .error .malformed

/-- A value, written as an object or as an array of its type and its data. -/
def ofRaw (room : Nat) : Raw → Except Fault Value
  | .obj members => ofMembers (room - 1) .nothing members
  | .arr items => do
    match items with
    | t :: d :: rest =>
      let v ← ofData (← t.name DataType.tags) d
      if rest.isEmpty then return v else .error .malformed
    | [t] => let _ ← t.name DataType.tags; .error .mismatched
    | [] => .error .mismatched
  | v => v.mismatch

end Value
end TierCache
