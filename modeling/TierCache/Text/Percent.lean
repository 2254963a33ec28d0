import TierCache.Text.Blank
import TierCache.Text.Utf8

/-!
Percent-encoded bytes, as in the path and the query of a request target. A percent sign without
two hexadecimal digits after it stands for itself.
-/
namespace TierCache.Text

/-- The value of a hexadecimal digit of either case. -/
def hexDigit? (c : Char) : Option Nat :=
  let n := c.toNat
  if 48 ≤ n ∧ n ≤ 57 then some (n - 48)
  else if 97 ≤ n ∧ n ≤ 102 then some (n - 87)
  else if 65 ≤ n ∧ n ≤ 70 then some (n - 55)
  else none

/-- A capital hexadecimal digit. -/
def hexDigit (n : Nat) : Char := if n < 10 then Char.ofNat (48 + n) else Char.ofNat (55 + n)

/-- A byte as two capital hexadecimal digits. -/
def hexByte (b : UInt8) : List Char := [hexDigit (b.toNat / 16), hexDigit (b.toNat % 16)]

/-- The bytes of a percent-encoded text. -/
def percentBytes : List Char → List UInt8
  | '%' :: a :: b :: rest => match hexDigit? a, hexDigit? b with
    | some x, some y => UInt8.ofNat (x * 16 + y) :: percentBytes rest
    | _, _ => encode "%" ++ percentBytes (a :: b :: rest)
  | c :: rest => encode (String.singleton c) ++ percentBytes rest
  | [] => []

/-- A percent-encoded name; none when its bytes are not UTF-8. -/
def percentDecode? (cs : List Char) : Option String := decode? (percentBytes cs)

/-- A percent-encoded word of a form, where a plus sign is a blank. -/
def formDecode (cs : List Char) : String :=
  decodeLossy (percentBytes (cs.map fun c => if c = '+' then ' ' else c))

/-- The name and value pairs of a form; empty parts are left out, and a part without an equals sign
has an empty value. -/
def formPairs (cs : List Char) : List (String × String) :=
  ((splitOn '&' cs).filter (· ≠ [])).map fun part =>
    (formDecode (part.takeWhile (· ≠ '=')), formDecode ((part.dropWhile (· ≠ '=')).drop 1))

end TierCache.Text
