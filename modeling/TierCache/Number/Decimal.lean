import TierCache.Number.Binary64
import TierCache.Text.Blank
import TierCache.Text.Integer

/-!
Floats in decimal: the shortest decimal that reads back as a given float, the two notations it is
written in, and the reader of decimal text.
-/
namespace TierCache

/-- A positive decimal: the number `digits * 10 ^ exponent`. -/
structure Decimal where
  digits : Nat
  exponent : Int
  deriving DecidableEq, Repr

namespace Decimal

/-- The same number without zeros at the end of its digits. -/
def trimmed : Nat → Decimal → Decimal
  | 0, d => d
  | fuel + 1, d =>
    if d.digits ≠ 0 ∧ d.digits % 10 = 0 then trimmed fuel ⟨d.digits / 10, d.exponent + 1⟩ else d

/-- A positive quotient and the ends of the interval around it that rounds to the same float, all
three over one denominator; the ends belong to the interval when `closed`. -/
structure Target where
  low : Nat
  value : Nat
  high : Nat
  den : Nat
  closed : Bool

/-- The target of a positive finite float. -/
def Target.ofFloat (x : Binary64) : Target :=
  let m := x.significand
  let e := x.exponent
  -- the step below is half as long when the significand is the least normal one
  let narrow := m = Binary64.leadingBit ∧ e ≠ -1074
  let (low, value, high) := if narrow then (4 * m - 1, 4 * m, 4 * m + 2)
    else (4 * m - 2, 4 * m, 4 * m + 2)
  let scale := if 0 ≤ e then Nat.pow 2 e.toNat else 1
  let den := if 0 ≤ e then 4 else 4 * Nat.pow 2 (-e).toNat
  ⟨low * scale, value * scale, high * scale, den, m % 2 = 0⟩

/-- Whether the decimal lies in the target's interval. -/
def Target.holds (t : Target) (d : Decimal) : Bool :=
  let n := (if 0 ≤ d.exponent then d.digits * Nat.pow 10 d.exponent.toNat else d.digits) * t.den
  let s := if 0 ≤ d.exponent then 1 else Nat.pow 10 (-d.exponent).toNat
  if t.closed then t.low * s ≤ n && n ≤ t.high * s else t.low * s < n && n < t.high * s

/-- The grid point with the given exponent at or below the target's value, and twice the distance
from it to the value, measured in grid steps and compared with one step. -/
def Target.below (t : Target) (exponent : Int) : Nat × Ordering :=
  let num := if 0 ≤ exponent then t.value else t.value * Nat.pow 10 (-exponent).toNat
  let den := if 0 ≤ exponent then t.den * Nat.pow 10 exponent.toNat else t.den
  (num / den, compare (2 * (num % den)) den)

/-- The least power of ten above the value has an exponent at least `k`; counts up from there. -/
def Target.magnitude (t : Target) : Nat → Int → Int
  | 0, k => k
  | fuel + 1, k =>
    if (t.below k).1 = 0 then k else t.magnitude fuel (k + 1)

/-- Tries decimals of `count` digits, then of more. Of two in the interval the nearer wins, and the
greater in a tie. -/
def Target.shortestFrom (t : Target) (top : Int) : (fuel count : Nat) → Decimal
  | 0, count => ⟨(t.below (top - count)).1, top - count⟩
  | fuel + 1, count =>
    let exponent := top - count
    let (q, side) := t.below exponent
    let down : Decimal := ⟨q, exponent⟩
    let up : Decimal := ⟨q + 1, exponent⟩
    match t.holds down, t.holds up with
    | true, true => if side = .lt then down else up
    | true, false => down
    | false, true => up
    | false, false => t.shortestFrom top fuel (count + 1)

/-- A first guess at the decimal exponent of the value, never too great. -/
def Target.guess (t : Target) : Int :=
  let guess : Int := ((Nat.log2 t.value : Int) - Nat.log2 t.den) * 3 / 10 - 2
  if guess < 0 then guess * 11 / 10 - 2 else guess

/-- The decimal of fewest digits that reads back as the positive finite float, and of those the
nearest one. -/
def shortest (x : Binary64) : Decimal :=
  let t := Target.ofFloat x
  trimmed 20 (t.shortestFrom (t.magnitude 80 t.guess) 17 1)

/-- The digits as text. -/
def digitText (d : Decimal) : List Char := (toString d.digits).toList

/-- Without an exponent: all zeros are written out. -/
def positional (d : Decimal) : List Char :=
  let ds := d.digitText
  if 0 ≤ d.exponent then ds ++ List.replicate d.exponent.toNat '0'
  else
    let point : Int := ds.length + d.exponent
    if 0 < point then ds.take point.toNat ++ '.' :: ds.drop point.toNat
    else '0' :: '.' :: List.replicate (-point).toNat '0' ++ ds

/-- One digit, a point, the others, and an exponent. -/
def scientific (d : Decimal) : List Char :=
  let ds := d.digitText
  let power : Int := d.exponent + ds.length - 1
  let fraction := if ds.length = 1 then [] else '.' :: ds.drop 1
  ds.take 1 ++ fraction ++ 'e' :: (toString power).toList

end Decimal

namespace Binary64

/-- The sign, then the notation of the shortest decimal. -/
def signed (x : Binary64) (body : List Char) : String :=
  String.ofList (if x.isNegative then '-' :: body else body)

/-- The text of a score: fewest digits that read back, never an exponent. -/
def text (x : Binary64) : String :=
  if x.isNaN then "NaN"
  else if !x.isFinite then x.signed ['i', 'n', 'f']
  else if x.magnitude = 0 then x.signed ['0']
  else x.signed (Decimal.shortest x).positional

/-- The digits between the sign and the exponent: their value, how many stand behind the point, and
whether there was any. -/
structure Mantissa where
  coefficient : Nat
  places : Nat
  any : Bool
  rest : List Char

/-- Digits before the point, and after it once `behind` is set. -/
def readMantissa (behind : Bool) (m : Mantissa) : List Char → Mantissa
  | [] => { m with rest := [] }
  | c :: cs => match Text.digit? c with
    | some d => readMantissa behind
        ⟨m.coefficient * 10 + d, if behind then m.places + 1 else m.places, true, []⟩ cs
    | none => if c = '.' ∧ !behind then readMantissa true m cs else { m with rest := c :: cs }

/-- The exponent after its letter: an optional sign, then digits to the end. -/
def readExponent? : List Char → Option Int
  | '-' :: cs => (Text.digits? cs).map fun n => -(n : Int)
  | '+' :: cs => (Text.digits? cs).map fun n => (n : Int)
  | cs => (Text.digits? cs).map fun n => (n : Int)

/-- Decimal text without its sign. The words for infinity and for what is not a number count, in
any case of letters. -/
def readUnsigned? (negative : Bool) (cs : List Char) : Option Binary64 :=
  let word := Text.lower (String.ofList cs)
  if word = "inf" ∨ word = "infinity" then some (infinity negative)
  else if word = "nan" then some (nan negative)
  else
    let m := readMantissa false ⟨0, 0, false, []⟩ cs
    if !m.any then none
    else match m.rest with
      | [] => some (ofDecimal negative m.coefficient (-(m.places : Int)))
      | c :: cs =>
        if c = 'e' ∨ c = 'E' then
          (readExponent? cs).map fun e => ofDecimal negative m.coefficient (e - m.places)
        else none

/-- The float that decimal text names, rounded to nearest. -/
def ofText? (s : String) : Option Binary64 :=
  match s.toList with
  | '-' :: cs => readUnsigned? true cs
  | '+' :: cs => readUnsigned? false cs
  | cs => readUnsigned? false cs

end Binary64
end TierCache
