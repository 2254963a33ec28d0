/-!
Ranges of positions, both ends included. A negative end counts from the tail. The arithmetic is that
of 64-bit integers.
-/
namespace TierCache.Range

/-- The first and the last position of a range in a sequence of some length; none when it is
empty. -/
def bounds (length : Nat) (start stop : Int64) : Option (Nat × Nat) :=
  if length = 0 then none
  else
    let len := Int64.ofNat length
    let first := if start < 0 then max (len + start) 0 else start
    let last := if stop < 0 then len + stop else min stop (len - 1)
    if last < first ∨ len ≤ first then none else some (first.toNatClampNeg, last.toNatClampNeg)

/-- The elements in a range. -/
def slice {α : Type} (xs : List α) (start stop : Int64) : List α :=
  match bounds xs.length start stop with
  | some (first, last) => (xs.drop first).take (last - first + 1)
  | none => []

end TierCache.Range
