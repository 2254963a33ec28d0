import TierCache.Error
import TierCache.Text.Integer
import TierCache.Value.Basic

/-!
Changes to the contents of a value, one by one. Each gives its result, whether the contents have to
be written, and the contents after it. Repeated arguments of one change take effect one after
another.
-/
namespace TierCache
open Std

/-- The outcome of a change to contents of type `β`. -/
structure Edit (α β : Type) where
  result : α
  changed : Bool
  after : β

namespace Edit

/-! ### Text -/

/-- The integer that text stands for; no text is zero. -/
def integer? (text : String) : Option Int64 := if text = "" then some 0 else Text.int64? text

/-- Adds to the integer that the text stands for. -/
def incr (delta : Int64) (text : String) : Except CacheError (Edit Int64 String) :=
  match (integer? text).bind (Text.add64? · delta) with
  | some n => .ok ⟨n, true, Text.int64Text n⟩
  | none => .error .notInteger

/-- Appends; the result is the new length in bytes. -/
def append (suffix text : String) : Edit Nat String :=
  ⟨(text ++ suffix).utf8ByteSize, true, text ++ suffix⟩

/-! ### Hashes -/

/-- Sets fields; the result counts the new ones. -/
def setFields (pairs : List (String × String)) (h : ExtTreeMap String String) :
    Edit Nat (ExtTreeMap String String) :=
  let (n, after) := pairs.foldl (fun (n, h) (field, text) =>
    (if h.contains field then n else n + 1, h.insert field text)) (0, h)
  ⟨n, !pairs.isEmpty, after⟩

/-- Removes fields; the result counts those that were there. -/
def removeFields (fields : List String) (h : ExtTreeMap String String) :
    Edit Nat (ExtTreeMap String String) :=
  let (n, after) := fields.foldl (fun (n, h) field =>
    (if h.contains field then n + 1 else n, h.erase field)) (0, h)
  ⟨n, 0 < n, after⟩

/-! ### Lists -/

/-- Pushes elements one by one to the head; the result is the new length. -/
def pushHead (items : List String) (xs : List String) : Edit Nat (List String) :=
  let after := items.reverse ++ xs
  ⟨after.length, !items.isEmpty, after⟩

/-- Pushes elements one by one to the tail; the result is the new length. -/
def pushTail (items : List String) (xs : List String) : Edit Nat (List String) :=
  let after := xs ++ items
  ⟨after.length, !items.isEmpty, after⟩

/-- Takes the element at the head. -/
def popHead : List String → Edit (Option String) (List String)
  | [] => ⟨none, false, []⟩
  | x :: xs => ⟨some x, true, xs⟩

/-- Takes the element at the tail. -/
def popTail (xs : List String) : Edit (Option String) (List String) :=
  ⟨xs.getLast?, !xs.isEmpty, xs.dropLast⟩

/-! ### Sets -/

/-- Adds members; the result counts the new ones. -/
def addMembers (members : List String) (s : ExtTreeSet String) : Edit Nat (ExtTreeSet String) :=
  let (n, after) := members.foldl (fun (n, s) m =>
    (if s.contains m then n else n + 1, s.insert m)) (0, s)
  ⟨n, 0 < n, after⟩

/-- Removes members; the result counts those that were there. -/
def removeMembers (members : List String) (s : ExtTreeSet String) : Edit Nat (ExtTreeSet String) :=
  let (n, after) := members.foldl (fun (n, s) m =>
    (if s.contains m then n + 1 else n, s.erase m)) (0, s)
  ⟨n, 0 < n, after⟩

/-! ### Sorted sets -/

/-- Adds members or gives them new scores; the result counts the new ones. -/
def addScored (members : List (Binary64 × String)) (z : SortedSet) : Edit Nat SortedSet :=
  let (n, after) := members.foldl (fun (n, z) (score, m) =>
    let (new, z) := z.insert m score
    (if new then n + 1 else n, z)) (0, z)
  ⟨n, !members.isEmpty, after⟩

/-- Removes members; the result counts those that were there. -/
def removeScored (members : List String) (z : SortedSet) : Edit Nat SortedSet :=
  let (n, after) := members.foldl (fun (n, z) m =>
    let (was, z) := z.remove m
    (if was then n + 1 else n, z)) (0, z)
  ⟨n, 0 < n, after⟩

end Edit
end TierCache
