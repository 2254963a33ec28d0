/-!
Binary floating-point numbers of 64 bits, as their bits. Every operation here is exact arithmetic
on natural numbers followed by one rounding to nearest, ties to even; nothing depends on a machine.
-/
namespace TierCache

/-- A 64-bit float: a sign bit, eleven exponent bits, fifty-two fraction bits. -/
structure Binary64 where
  bits : UInt64
  deriving DecidableEq, Inhabited

namespace Binary64

/-- The sign bit, which is two to the 63rd. -/
def signBit : Nat := 0x8000000000000000

/-- The leading bit of a significand, which is two to the 52nd and which normal floats do not
write. -/
def leadingBit : Nat := 0x10000000000000

/-- The bits without the sign. -/
def magnitude (x : Binary64) : Nat := x.bits.toNat % signBit

/-- True for a set sign bit, whatever the rest says. -/
def isNegative (x : Binary64) : Bool := signBit ≤ x.bits.toNat

/-- The magnitude of infinity; greater ones are not numbers. -/
def infiniteMagnitude : Nat := 0x7FF * leadingBit

def isFinite (x : Binary64) : Bool := x.magnitude < infiniteMagnitude

def isNaN (x : Binary64) : Bool := infiniteMagnitude < x.magnitude

/-- The float with a sign and a magnitude. -/
def ofMagnitude (negative : Bool) (m : Nat) : Binary64 :=
  ⟨UInt64.ofNat ((if negative then signBit else 0) + m)⟩

def zero : Binary64 := ofMagnitude false 0

def infinity (negative : Bool) : Binary64 := ofMagnitude negative infiniteMagnitude

def nan (negative : Bool) : Binary64 := ofMagnitude negative (infiniteMagnitude + leadingBit / 2)

/-- The place of a float in the total order: negative NaN, negative numbers, negative zero, zero,
positive numbers, positive NaN. -/
def rank (x : Binary64) : Int :=
  if x.isNegative then -1 - (x.magnitude : Int) else x.magnitude

theorem bits_toNat (x : Binary64) :
    x.bits.toNat = (if x.isNegative then signBit else 0) + x.magnitude := by
  have := x.bits.toNat_lt
  by_cases h : signBit ≤ x.bits.toNat
  · simp only [isNegative, magnitude, h, decide_true, if_true]
    simp only [signBit] at h ⊢
    omega
  · simp only [isNegative, magnitude, h, decide_false, Bool.false_eq_true, if_false]
    simp only [signBit] at h ⊢
    omega

/-- Different floats have different places. -/
theorem rank_inj {x y : Binary64} (h : x.rank = y.rank) : x = y := by
  have hx := x.bits_toNat
  have hy := y.bits_toNat
  have : x.bits.toNat = y.bits.toNat := by
    simp only [rank] at h
    rw [hx, hy]
    split at h <;> split at h <;> simp_all <;> omega
  cases x; cases y
  simpa [UInt64.toNat_inj] using this

/-- The integer part of `num / den`, or the next integer: the nearer, a tie to the even one. -/
def roundDiv (num den : Nat) : Nat :=
  let q := num / den
  let r := num % den
  if 2 * r < den ∨ (2 * r = den ∧ q % 2 = 0) then q else q + 1

/-- The exponent of the greatest power of two that is at most `num / den`. -/
def leadingPower (num den : Nat) : Int :=
  let guess : Int := (Nat.log2 num : Int) - Nat.log2 den
  let reaches : Bool :=
    if 0 ≤ guess then den * Nat.pow 2 guess.toNat ≤ num else den ≤ num * Nat.pow 2 (-guess).toNat
  if reaches then guess else guess - 1

/-- `num / den` over a power of two, as the nearest integer, a tie as the even one. -/
def roundScaled (num den : Nat) (unit : Int) : Nat :=
  if 0 ≤ unit then roundDiv num (den * Nat.pow 2 unit.toNat)
  else roundDiv (num * Nat.pow 2 (-unit).toNat) den

/-- The magnitude nearest to `num / den` times `2 ^ -1074`'s grid: below the normal range the grid
is `2 ^ -1074`, above it the grid leaves fifty-three significant bits. -/
def nearestMagnitude (num den : Nat) : Nat :=
  let unit : Int := max (leadingPower num den - 52) (-1074)
  (unit + 1074).toNat * leadingBit + roundScaled num den unit

/-- The float nearest to a quotient; infinite from half a step above the greatest finite float. -/
def ofRatio (negative : Bool) (num den : Nat) : Binary64 :=
  if num = 0 then ofMagnitude negative 0
  else ofMagnitude negative (min (nearestMagnitude num den) infiniteMagnitude)

/-- The float nearest to `coefficient * 10 ^ exponent`. -/
def ofDecimal (negative : Bool) (coefficient : Nat) (exponent : Int) : Binary64 :=
  if coefficient = 0 then ofMagnitude negative 0
  else
    -- the decimal exponent of the leading digit is at least `size`, at most one greater
    let size : Int := exponent + (Nat.log2 coefficient : Int) * 3 / 10
    if 400 < size then infinity negative
    else if size < -2000 then ofMagnitude negative 0
    else if 0 ≤ exponent then ofRatio negative (coefficient * Nat.pow 10 exponent.toNat) 1
    else ofRatio negative coefficient (Nat.pow 10 (-exponent).toNat)

/-- The float nearest to a natural number. -/
def ofNat (n : Nat) : Binary64 := ofRatio false n 1

/-- A finite float's magnitude is `significand * 2 ^ exponent`. -/
def significand (x : Binary64) : Nat :=
  if x.magnitude < leadingBit then x.magnitude else leadingBit + x.magnitude % leadingBit

/-- The power of two that the significand counts. -/
def exponent (x : Binary64) : Int :=
  if x.magnitude < leadingBit then -1074 else (x.magnitude / leadingBit : Int) - 1075

/-- The quotient of two finite floats that are not negative, the second not zero, correctly
rounded. -/
def div (x y : Binary64) : Binary64 :=
  let shift := x.exponent - y.exponent
  if 0 ≤ shift then ofRatio false (x.significand * Nat.pow 2 shift.toNat) y.significand
  else ofRatio false x.significand (y.significand * Nat.pow 2 (-shift).toNat)

end Binary64
end TierCache
