import TierCache.Engine.Keys
import TierCache.Value.Edit
import TierCache.Value.Range

/-!
Operations on the contents of a key. A change reads the entry, alters its contents, and writes it
back if something changed; a container left without elements is removed.
-/
namespace TierCache
open Std

namespace Engine

variable {σ : Type} [Store σ] {α β : Type}

/-- How contents of a type are taken out of a value and put back. -/
structure Contents (β : Type) where
  dataType : DataType
  of? : Value → Option β
  wrap : β → Value

namespace Contents

def text : Contents String :=
  ⟨.string, fun v => match v with | .string s => some s | _ => none, .string⟩

def hash : Contents (ExtTreeMap String String) :=
  ⟨.hash, fun v => match v with | .hash h => some h | _ => none, .hash⟩

def list : Contents (List String) :=
  ⟨.list, fun v => match v with | .list xs => some xs | _ => none, .list⟩

def set : Contents (ExtTreeSet String) :=
  ⟨.set, fun v => match v with | .set s => some s | _ => none, .set⟩

def sortedSet : Contents SortedSet :=
  ⟨.sortedSet, fun v => match v with | .sortedSet z => some z | _ => none, .sortedSet⟩

end Contents

/-- Writes an entry back; an empty container is deleted instead. -/
def writeBack (e : Engine σ) (region key : String) (entry : Entry) :
    Except CacheError Unit × Engine σ :=
  if entry.value.isEmptyContainer then (.ok (), (e.delete region [key]).2) else e.put entry

/-- Changes the contents of an entry. -/
def editEntry (e : Engine σ) (region key : String) (c : Contents β)
    (change : β → Except CacheError (Edit α β)) (entry : Entry) : Except CacheError α × Engine σ :=
  match c.of? entry.value with
  | none => (.error .wrongType, e)
  | some contents => match change contents with
    | .error err => (.error err, e)
    | .ok edit =>
      if edit.changed then
        match e.writeBack region key { entry with value := c.wrap edit.after } with
        | (.error err, e) => (.error err, e)
        | (.ok (), e) => (.ok edit.result, e)
      else (.ok edit.result, e)

/-- Changes the contents of a key; an absent key counts as empty. -/
def upsert (e : Engine σ) (now : Nat) (region key : String) (c : Contents β)
    (change : β → Except CacheError (Edit α β)) : Except CacheError α × Engine σ :=
  match e.getEntry now region key with
  | (some entry, e) => e.editEntry region key c change entry
  | (none, e) =>
    e.editEntry region key c change (.create now region key (.empty c.dataType) none)

/-- Changes the contents of a key that is there; `absent` is the result otherwise. -/
def update (e : Engine σ) (now : Nat) (region key : String) (c : Contents β) (absent : α)
    (change : β → Edit α β) : Except CacheError α × Engine σ :=
  match e.getEntry now region key with
  | (some entry, e) => e.editEntry region key c (fun b => .ok (change b)) entry
  | (none, e) => (.ok absent, e)

/-- Reads from the contents of a key; `absent` is the result when it is not there. -/
def inspect (e : Engine σ) (now : Nat) (region key : String) (c : Contents β) (absent : α)
    (read : β → α) : Except CacheError α × Engine σ :=
  match e.getEntry now region key with
  | (some entry, e) => match c.of? entry.value with
    | some contents => (.ok (read contents), e)
    | none => (.error .wrongType, e)
  | (none, e) => (.ok absent, e)

variable (e : Engine σ) (now : Nat) (region key : String)

def incrBy (delta : Int64) : Except CacheError Int64 × Engine σ :=
  e.upsert now region key .text (Edit.incr delta)

def append (suffix : String) : Except CacheError Nat × Engine σ :=
  e.upsert now region key .text fun s => .ok (Edit.append suffix s)

def hset (pairs : List (String × String)) : Except CacheError Nat × Engine σ :=
  e.upsert now region key .hash fun h => .ok (Edit.setFields pairs h)

def hget (field : String) : Except CacheError (Option String) × Engine σ :=
  e.inspect now region key .hash none (·[field]?)

/-- All fields, in order. -/
def hgetAll : Except CacheError (List (String × String)) × Engine σ :=
  e.inspect now region key .hash [] (·.toList)

def hdel (fields : List String) : Except CacheError Nat × Engine σ :=
  e.update now region key .hash 0 (Edit.removeFields fields)

def pushHead (items : List String) : Except CacheError Nat × Engine σ :=
  e.upsert now region key .list fun xs => .ok (Edit.pushHead items xs)

def pushTail (items : List String) : Except CacheError Nat × Engine σ :=
  e.upsert now region key .list fun xs => .ok (Edit.pushTail items xs)

def popHead : Except CacheError (Option String) × Engine σ :=
  e.update now region key .list none Edit.popHead

def popTail : Except CacheError (Option String) × Engine σ :=
  e.update now region key .list none Edit.popTail

def listRange (start stop : Int64) : Except CacheError (List String) × Engine σ :=
  e.inspect now region key .list [] (Range.slice · start stop)

def listLength : Except CacheError Nat × Engine σ :=
  e.inspect now region key .list 0 (·.length)

def setAdd (members : List String) : Except CacheError Nat × Engine σ :=
  e.upsert now region key .set fun s => .ok (Edit.addMembers members s)

/-- The members, in order. -/
def setMembers : Except CacheError (List String) × Engine σ :=
  e.inspect now region key .set [] (·.toList)

def setRemove (members : List String) : Except CacheError Nat × Engine σ :=
  e.update now region key .set 0 (Edit.removeMembers members)

def setContains (member : String) : Except CacheError Bool × Engine σ :=
  e.inspect now region key .set false (·.contains member)

/-- Adds members with finite scores. -/
def sortedAdd (members : List (Binary64 × String)) : Except CacheError Nat × Engine σ :=
  if members.all (·.1.isFinite) then
    e.upsert now region key .sortedSet fun z => .ok (Edit.addScored members z)
  else (.error (.invalidRequest "value is not a valid float"), e)

/-- The members whose ranks lie in a range. -/
def sortedRange (start stop : Int64) : Except CacheError (List ScoredMember) × Engine σ :=
  e.inspect now region key .sortedSet [] fun z => Range.slice z.toList start stop

def sortedRemove (members : List String) : Except CacheError Nat × Engine σ :=
  e.update now region key .sortedSet 0 (Edit.removeScored members)

def sortedScore (member : String) : Except CacheError (Option Binary64) × Engine σ :=
  e.inspect now region key .sortedSet none (·.score? member)

end Engine
end TierCache
