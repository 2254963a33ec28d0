import TierCache.Json.Read
import TierCache.Text.Blank
import TierCache.Text.MediaType
import TierCache.Text.Utf8

/-!
Requests to the admin interface, and the data in them.
-/
namespace TierCache.Admin
open Json

structure Request where
  method : String
  /-- The path and, after a question mark, the query. -/
  target : String
  contentType : Option String
  body : List UInt8
  deriving DecidableEq

/-- What is wrong with a name of a region or a key, if anything. -/
def nameProblem? (kind name : String) : Option String :=
  if name = "" then some (kind ++ " cannot be empty")
  else if name.toList.any fun c => Text.isBlank c || c = '@' then
    some (kind ++ " cannot contain whitespace or '@'")
  else none

/-- The body of a request to set a key: a text and the seconds it lives. -/
structure PutRequest where
  value : String
  ttl : Option Nat
  deriving DecidableEq, Repr

namespace PutRequest

/-- The request in the members of an object, with what the earlier ones gave. The first fault in the
text wins: a wrong shape is one before what follows it is looked at. -/
def ofMembers (value : Option String) (ttl : Option (Option Nat)) :
    List (Option String × Raw) → Except Fault PutRequest
  | [] => match value with
    | some text => .ok ⟨text, ttl.join⟩
    | none => .error .mismatched
  | (none, _) :: _ => .error .malformed
  | (some k, v) :: rest =>
    if k = "value" then
      if value.isSome then .error .mismatched
      else match v.string with
        | .ok text => ofMembers (some text) ttl rest
        | .error f => .error f
    else if k = "ttl" then
      if ttl.isSome then .error .mismatched
      else match Raw.optional Raw.unsigned v with
        | .ok seconds => ofMembers value (some seconds) rest
        | .error f => .error f
    else if v.complete then ofMembers value ttl rest
    else .error .malformed

/-- The request in the items of an array; the seconds may be left off. -/
def ofItems : List Raw → Except Fault PutRequest
  | [] => .error .mismatched
  | [value] => do return ⟨← value.string, none⟩
  | value :: ttl :: rest => do
    let text ← value.string
    let seconds ← Raw.optional Raw.unsigned ttl
    if rest.isEmpty then return ⟨text, seconds⟩ else .error .malformed

def ofRaw : Raw → Except Fault PutRequest
  | .obj members => ofMembers none none members
  | .arr items => ofItems items
  | v => v.mismatch

/-- What is wrong with a request that could be read, if anything. -/
def problem? (r : PutRequest) : Option String :=
  if r.ttl = some 0 then some "ttl must be a positive number of seconds" else none

/-- The longest start of the bytes that is UTF-8. -/
def textPrefix (bytes : List UInt8) : String :=
  ((List.range (bytes.length + 1)).reverse.findSome? fun n => Text.decode? (bytes.take n)).getD ""

/-- The request in a body. What follows its first value is ignored. -/
def ofBody (bytes : List UInt8) : Except Fault PutRequest :=
  ofRaw (Raw.first (textPrefix bytes).toList).1

end PutRequest

/-- The query for the keys of a region. -/
structure KeysQuery where
  pattern : Option String
  deriving DecidableEq, Repr

namespace KeysQuery

def ofRaw (v : Raw) : Except Fault KeysQuery := do
  match ← v.record ["pattern"] 0 with
  | [pattern] => return ⟨← Raw.orElse none (Raw.optional Raw.string) pattern⟩
  | _ => .error .mismatched

/-- The query in the pairs of a form; none when the pattern is given twice. -/
def ofPairs? (pairs : List (String × String)) : Option KeysQuery :=
  match (pairs.filter fun pair => pair.1 = "pattern").map (·.2) with
  | [] => some ⟨none⟩
  | [pattern] => some ⟨some pattern⟩
  | _ => none

/-- The pattern asked for, or else the one that matches all keys. -/
def patternText (q : KeysQuery) : String := q.pattern.getD "*"

end KeysQuery
end TierCache.Admin
