import TierCache.Json.Basic

/-!
Identifiers of the form of version 4 of RFC 9562: 32 hexadecimal digits in five groups, among them
the version and the variant.
-/
namespace TierCache.Text

/-- The last `width` hexadecimal digits of a number. -/
def hexPadded : (width : Nat) → Nat → List Char
  | 0, _ => []
  | width + 1, n => hexPadded width (n / 16) ++ [Json.hexDigit (n % 16)]

/-- An identifier that holds a number below `2 ^ 122`, so that different numbers give different
identifiers. -/
def uuid (n : Nat) : String :=
  String.ofList (hexPadded 8 (n / Nat.pow 2 90) ++ '-' :: hexPadded 4 (n / Nat.pow 2 74) ++
    '-' :: '4' :: hexPadded 3 (n / Nat.pow 2 62) ++
    '-' :: Json.hexDigit (8 + n / Nat.pow 2 60 % 4) :: hexPadded 3 (n / Nat.pow 2 48) ++
    '-' :: hexPadded 12 n)

end TierCache.Text
