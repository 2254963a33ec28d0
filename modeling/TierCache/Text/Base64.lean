/-!
Base64 with the standard alphabet. The reader takes canonical text only: whole groups of four, the
last one padded, and no stray bits before the padding.
-/
namespace TierCache.Text.Base64

/-- The value of a character of the standard alphabet. -/
def value? (c : Char) : Option Nat :=
  let n := c.toNat
  if 65 ≤ n ∧ n ≤ 90 then some (n - 65)
  else if 97 ≤ n ∧ n ≤ 122 then some (n - 71)
  else if 48 ≤ n ∧ n ≤ 57 then some (n + 4)
  else if c = '+' then some 62
  else if c = '/' then some 63
  else none

/-- Three bytes from four values. -/
def group (a b c d : Nat) : List UInt8 :=
  [UInt8.ofNat (a * 4 + b / 16), UInt8.ofNat (b % 16 * 16 + c / 4), UInt8.ofNat (c % 4 * 64 + d)]

/-- The bytes that canonical base64 text stands for. -/
def decode? : List Char → Option (List UInt8)
  | [] => some []
  | [a, b, '=', '='] => match value? a, value? b with
    | some a, some b => if b % 16 = 0 then some ((group a b 0 0).take 1) else none
    | _, _ => none
  | [a, b, c, '='] => match value? a, value? b, value? c with
    | some a, some b, some c => if c % 4 = 0 then some ((group a b c 0).take 2) else none
    | _, _, _ => none
  | a :: b :: c :: d :: rest => match value? a, value? b, value? c, value? d with
    | some a, some b, some c, some d => (decode? rest).map (group a b c d ++ ·)
    | _, _, _, _ => none
  | _ => none

end TierCache.Text.Base64
