/-!
Decimal integers of 64 bits, read and written. An integer is read only when every character is a
digit after an optional sign, and only when it is in range.
-/
namespace TierCache.Text

/-- The greatest unsigned value of 64 bits. -/
def maxUnsigned : Nat := 0xFFFFFFFFFFFFFFFF

/-- The sum, held at the greatest unsigned value of 64 bits. -/
def addCapped (a b : Nat) : Nat := min (a + b) maxUnsigned

/-- The product, held at the greatest unsigned value of 64 bits. -/
def mulCapped (a b : Nat) : Nat := min (a * b) maxUnsigned

/-- The value of an ASCII decimal digit. -/
def digit? (c : Char) : Option Nat :=
  if 48 ≤ c.toNat ∧ c.toNat ≤ 57 then some (c.toNat - 48) else none

/-- The number that the digits write after those that make up `acc`. -/
def digitsFrom (acc : Nat) : List Char → Option Nat
  | [] => some acc
  | c :: cs => match digit? c with
    | some d => digitsFrom (acc * 10 + d) cs
    | none => none

/-- The number written by at least one digit and nothing else. -/
def digits? : List Char → Option Nat
  | [] => none
  | cs => digitsFrom 0 cs

/-- An unsigned number up to `bound`; a plus sign may come first. -/
def unsigned? (bound : Nat) (s : String) : Option Nat :=
  let digits := match s.toList with
    | '+' :: cs => cs
    | cs => cs
  match digits? digits with
  | some n => if n ≤ bound then some n else none
  | none => none

/-- The least magnitude beyond the signed integers of 64 bits, but for that of the least one. -/
def signedLimit : Nat := 0x8000000000000000

/-- The integer, when it has 64 bits. -/
def int64OfInt? (n : Int) : Option Int64 :=
  if -(signedLimit : Int) ≤ n ∧ n < signedLimit then some (Int64.ofInt n) else none

/-- A signed integer of 64 bits; a plus or a minus sign may come first. -/
def int64? (s : String) : Option Int64 :=
  match s.toList with
  | '-' :: cs => (digits? cs).bind fun n => int64OfInt? (-(n : Int))
  | '+' :: cs => (digits? cs).bind fun n => int64OfInt? n
  | cs => (digits? cs).bind fun n => int64OfInt? n

/-- The decimal text of a signed integer. -/
def int64Text (n : Int64) : String := toString n.toInt

/-- The exact sum, when it has 64 bits. -/
def add64? (a b : Int64) : Option Int64 := int64OfInt? (a.toInt + b.toInt)

/-- The exact negation, when it has 64 bits: only the least integer has none. -/
def neg64? (a : Int64) : Option Int64 := int64OfInt? (-a.toInt)

end TierCache.Text
