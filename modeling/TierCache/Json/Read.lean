import TierCache.Json.Raw

/-!
Reading typed data from JSON as it was written. A record is an object whose members may come in any
order and with unknown ones among them, or an array of its fields in order. A known field may be
written once only.
-/
namespace TierCache.Json

/-- Why typed data cannot be read: the text is not JSON up to there, or it has another shape. -/
inductive Fault
  | malformed
  | mismatched
  deriving DecidableEq, Repr

namespace Raw

/-- A value of the wrong shape; where the text broke off, that is the fault. -/
def mismatch {α : Type} : Raw → Except Fault α
  | .broken => .error .malformed
  | .str none => .error .malformed
  | .num n => if (ofNumeral? n).isSome then .error .mismatched else .error .malformed
  | _ => .error .mismatched

def string : Raw → Except Fault String
  | .str (some s) => .ok s
  | v => v.mismatch

def boolean : Raw → Except Fault Bool
  | .bool b => .ok b
  | v => v.mismatch

/-- An unsigned integer of 64 bits, written without point and exponent. -/
def unsigned : Raw → Except Fault Nat
  | .num n => match ofNumeral? n with
    | some (.int (.ofNat k)) => .ok k
    | some _ => .error .mismatched
    | none => .error .malformed
  | v => v.mismatch

/-- A float, written as any number. -/
def float : Raw → Except Fault Binary64
  | .num n => match ofNumeral? n with
    | some (.int k) => .ok (Binary64.ofRatio (k < 0) k.natAbs 1)
    | some (.float x) => .ok x
    | _ => .error .malformed
  | v => v.mismatch

/-- Null is none. -/
def optional {α : Type} (read : Raw → Except Fault α) : Raw → Except Fault (Option α)
  | .null => .ok none
  | v => (read v).map some

/-- Reads every element, the first fault wins. -/
def each {α β : Type} (read : α → Except Fault β) : List α → Except Fault (List β)
  | [] => .ok []
  | a :: as => match read a with
    | .error f => .error f
    | .ok b => (each read as).map (b :: ·)

def array {α : Type} (read : Raw → Except Fault α) : Raw → Except Fault (List α)
  | .arr items => each read items
  | v => v.mismatch

/-- An object as pairs in the order written. -/
def pairs {α : Type} (read : Raw → Except Fault α) : Raw → Except Fault (List (String × α))
  | .obj members => each (fun (k, v) => match k with
      | some k => (read v).map (k, ·)
      | none => .error .malformed) members
  | v => v.mismatch

/-- One of a few names; a name may also be the only key of an object that holds null. -/
def name {α : Type} (choices : List (String × α)) : Raw → Except Fault α
  | .str (some s) => match choices.lookup s with
    | some a => .ok a
    | none => .error .mismatched
  | .obj [(some s, .null)] => match choices.lookup s with
    | some a => .ok a
    | none => .error .mismatched
  | v => v.mismatch

/-- The members of a record by field, collected in `found`. Unknown members are passed over when
their text is whole. -/
def collect (fields : List String) :
    List (Option String × Raw) → (found : List (String × Raw)) → Except Fault (List (String × Raw))
  | [], found => .ok found
  | (none, _) :: _, _ => .error .malformed
  | (some k, v) :: rest, found =>
    if k ∈ fields then
      if (found.lookup k).isSome then .error .mismatched else collect fields rest ((k, v) :: found)
    else if v.complete then collect fields rest found
    else .error .malformed

/-- The values written for the fields. The array form may leave off fields after the `required`
first ones. -/
def record (fields : List String) (required : Nat) : Raw → Except Fault (List (Option Raw))
  | .obj members => (collect fields members []).map fun found => fields.map fun f => found.lookup f
  | .arr items =>
    if items.length < required then
      if items.any (!·.complete) then .error .malformed else .error .mismatched
    else if fields.length < items.length then .error .malformed
    else .ok ((items.map some) ++ List.replicate (fields.length - items.length) none)
  | v => v.mismatch

/-- A field that must be written. -/
def needed {α : Type} (read : Raw → Except Fault α) : Option Raw → Except Fault α
  | some v => read v
  | none => .error .mismatched

/-- A field that is `default` when it is not written. -/
def orElse {α : Type} (default : α) (read : Raw → Except Fault α) : Option Raw → Except Fault α
  | some v => read v
  | none => .ok default

end Raw
end TierCache.Json
