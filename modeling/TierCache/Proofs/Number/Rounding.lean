import Mathlib.Algebra.Order.Field.Power
import Mathlib.Data.Nat.Log
import Mathlib.Tactic.FieldSimp
import Mathlib.Tactic.Linarith
import TierCache.Number.Binary64

/-!
Rounding to floats. Whatever lies in the interval around a float, and be it at its ends when the
float is even, is rounded to that float.
-/
namespace TierCache.Binary64

/-! ### Quotients -/

/-- A quotient rounds to what is half a step from it at most, and in a tie to what is even. -/
theorem roundDiv_eq_of_nat {num den q : Nat} (hden : 0 < den) (hlow : 2 * (q * den) ≤ 2 * num + den)
    (hhigh : 2 * num ≤ 2 * (q * den) + den)
    (hodd : q % 2 = 1 → 2 * (q * den) < 2 * num + den ∧ 2 * num < 2 * (q * den) + den) :
    roundDiv num den = q := by
  have hsplit : num / den * den + num % den = num := Nat.div_add_mod' num den
  have hrest : num % den < den := Nat.mod_lt num hden
  have hbelow : num / den ≤ q := by
    by_contra hless
    have : (q + 1) * den ≤ num / den * den := Nat.mul_le_mul_right den (by omega)
    rw [Nat.add_mul, Nat.one_mul] at this
    omega
  have habove : q ≤ num / den + 1 := by
    by_contra hmore
    have : (num / den + 2) * den ≤ q * den := Nat.mul_le_mul_right den (by omega)
    rw [Nat.add_mul] at this
    omega
  obtain heq | heq : q = num / den ∨ q = num / den + 1 := by omega
  · rw [heq] at hhigh hodd ⊢
    unfold roundDiv
    dsimp only
    split <;> omega
  · rw [heq, Nat.add_mul, Nat.one_mul] at hlow hodd
    unfold roundDiv
    dsimp only
    split <;> omega

theorem roundDiv_eq {num den q : Nat} (hden : 0 < den) (hlow : (q : ℚ) - 1 / 2 ≤ num / den)
    (hhigh : (num : ℚ) / den ≤ q + 1 / 2)
    (hodd : q % 2 = 1 → (q : ℚ) - 1 / 2 < num / den ∧ (num : ℚ) / den < q + 1 / 2) :
    roundDiv num den = q := by
  have hpos : (0 : ℚ) < den := by exact_mod_cast hden
  apply roundDiv_eq_of_nat hden
  · rw [le_div_iff₀ hpos] at hlow
    have : 2 * ((q : ℚ) * den) ≤ 2 * num + den := by linarith
    exact_mod_cast this
  · rw [div_le_iff₀ hpos] at hhigh
    have : 2 * (num : ℚ) ≤ 2 * (q * den) + den := by linarith
    exact_mod_cast this
  · intro h
    obtain ⟨hlow, hhigh⟩ := hodd h
    rw [lt_div_iff₀ hpos] at hlow
    rw [div_lt_iff₀ hpos] at hhigh
    constructor
    · have : 2 * ((q : ℚ) * den) < 2 * num + den := by linarith
      exact_mod_cast this
    · have : 2 * (num : ℚ) < 2 * (q * den) + den := by linarith
      exact_mod_cast this

/-- A power with an integer exponent, as the natural power above or below the line. -/
theorem zpow_cases (b : ℚ) (k : Int) :
    (0 ≤ k → b ^ k = b ^ k.toNat) ∧ (k ≤ 0 → b ^ k = 1 / b ^ (-k).toNat) := by
  constructor
  · intro h
    rw [← zpow_natCast, Int.toNat_of_nonneg h]
  · intro h
    rw [← zpow_natCast, Int.toNat_of_nonneg (by omega), zpow_neg, one_div, inv_inv]

theorem roundScaled_eq {num den q : Nat} {unit : Int} (hden : 0 < den)
    (hlow : (q : ℚ) - 1 / 2 ≤ num / den / 2 ^ unit) (hhigh : (num : ℚ) / den / 2 ^ unit ≤ q + 1 / 2)
    (hodd : q % 2 = 1 →
      (q : ℚ) - 1 / 2 < num / den / 2 ^ unit ∧ (num : ℚ) / den / 2 ^ unit < q + 1 / 2) :
    roundScaled num den unit = q := by
  unfold roundScaled
  by_cases hunit : 0 ≤ unit
  · have hquot : ((num : Nat) : ℚ) / den / 2 ^ unit = num / (den * Nat.pow 2 unit.toNat : Nat) := by
      rw [(zpow_cases 2 unit).1 hunit]
      push_cast [Nat.pow_eq]
      rw [div_div]
    rw [hquot] at hlow hhigh hodd
    rw [if_pos hunit]
    exact roundDiv_eq (Nat.mul_pos hden (Nat.pow_pos (by decide))) hlow hhigh hodd
  · have hquot : ((num : Nat) : ℚ) / den / 2 ^ unit = (num * Nat.pow 2 (-unit).toNat : Nat) / den := by
      rw [(zpow_cases 2 unit).2 (by omega)]
      push_cast [Nat.pow_eq]
      field_simp
    rw [hquot] at hlow hhigh hodd
    rw [if_neg hunit]
    exact roundDiv_eq hden hlow hhigh hodd

/-! ### The leading power -/

/-- A number lies between the power of its logarithm and the next one. -/
theorem log2_bounds {n : Nat} (hn : 0 < n) :
    (2 : ℚ) ^ (Nat.log2 n : Int) ≤ n ∧ (n : ℚ) < 2 ^ ((Nat.log2 n : Int) + 1) := by
  constructor
  · rw [zpow_natCast]
    exact_mod_cast Nat.log2_self_le (Nat.pos_iff_ne_zero.1 hn)
  · have : (n : ℚ) < 2 ^ (Nat.log2 n + 1) := by exact_mod_cast Nat.lt_log2_self
    exact_mod_cast this

/-- A quotient lies between the powers next to that of the logarithms' difference. -/
theorem quotient_bounds {num den : Nat} (hnum : 0 < num) (hden : 0 < den) :
    (2 : ℚ) ^ ((Nat.log2 num : Int) - Nat.log2 den - 1) < num / den ∧
      (num : ℚ) / den < 2 ^ ((Nat.log2 num : Int) - Nat.log2 den + 1) := by
  obtain ⟨hnlow, hnhigh⟩ := log2_bounds hnum
  obtain ⟨hdlow, hdhigh⟩ := log2_bounds hden
  have hpos : (0 : ℚ) < den := by exact_mod_cast hden
  have hpower (k : Int) : (0 : ℚ) < 2 ^ k := zpow_pos two_pos k
  constructor
  · rw [lt_div_iff₀ hpos]
    calc (2 : ℚ) ^ ((Nat.log2 num : Int) - Nat.log2 den - 1) * den
        < 2 ^ ((Nat.log2 num : Int) - Nat.log2 den - 1) * 2 ^ ((Nat.log2 den : Int) + 1) :=
          mul_lt_mul_of_pos_left hdhigh (hpower _)
      _ = 2 ^ (Nat.log2 num : Int) := by
          rw [← zpow_add₀ two_ne_zero]
          congr 1
          omega
      _ ≤ num := hnlow
  · rw [div_lt_iff₀ hpos]
    calc (num : ℚ) < 2 ^ ((Nat.log2 num : Int) + 1) := hnhigh
      _ = 2 ^ ((Nat.log2 num : Int) - Nat.log2 den + 1) * 2 ^ (Nat.log2 den : Int) := by
          rw [← zpow_add₀ two_ne_zero]
          congr 1
          omega
      _ ≤ 2 ^ ((Nat.log2 num : Int) - Nat.log2 den + 1) * den :=
          mul_le_mul_of_nonneg_left hdlow (hpower _).le

theorem leadingPower_spec {num den : Nat} (hnum : 0 < num) (hden : 0 < den) :
    (2 : ℚ) ^ leadingPower num den ≤ num / den ∧ (num : ℚ) / den < 2 ^ (leadingPower num den + 1) := by
  obtain ⟨hlow, hhigh⟩ := quotient_bounds hnum hden
  have hpos : (0 : ℚ) < den := by exact_mod_cast hden
  unfold leadingPower
  generalize (Nat.log2 num : Int) - Nat.log2 den = guess at hlow hhigh
  have hreaches : (if 0 ≤ guess then decide (den * Nat.pow 2 guess.toNat ≤ num)
      else decide (den ≤ num * Nat.pow 2 (-guess).toNat)) = true ↔ (2 : ℚ) ^ guess ≤ num / den := by
    rw [le_div_iff₀ hpos]
    by_cases hguess : 0 ≤ guess
    · rw [if_pos hguess, decide_eq_true_eq, (zpow_cases 2 guess).1 hguess, mul_comm]
      exact_mod_cast Iff.rfl
    · rw [if_neg hguess, decide_eq_true_eq, (zpow_cases 2 guess).2 (by omega), one_div,
        inv_mul_le_iff₀ (by positivity), mul_comm]
      exact_mod_cast Iff.rfl
  dsimp only
  by_cases h : (2 : ℚ) ^ guess ≤ num / den
  · rw [if_pos (hreaches.2 h)]
    exact ⟨h, hhigh⟩
  · rw [if_neg fun hle => h (hreaches.1 hle), sub_add_cancel]
    exact ⟨hlow.le, lt_of_not_ge h⟩

theorem leadingPower_eq {num den : Nat} (hnum : 0 < num) (hden : 0 < den) {k : Int}
    (hlow : (2 : ℚ) ^ k ≤ num / den) (hhigh : (num : ℚ) / den < 2 ^ (k + 1)) :
    leadingPower num den = k := by
  obtain ⟨hle, hlt⟩ := leadingPower_spec hnum hden
  have h₁ : leadingPower num den < k + 1 :=
    (zpow_lt_zpow_iff_right₀ one_lt_two).1 (hle.trans_lt hhigh)
  have h₂ : k < leadingPower num den + 1 :=
    (zpow_lt_zpow_iff_right₀ one_lt_two).1 (hlow.trans_lt hlt)
  omega

/-! ### Floats -/

/-- How a magnitude is put together. -/
structure Parts (x : Binary64) : Prop where
  magnitude : x.magnitude = (x.exponent + 1074).toNat * leadingBit + x.significand
  least : -1074 ≤ x.exponent
  below : x.significand < 2 * leadingBit
  normal : leadingBit ≤ x.significand ∨ x.exponent = -1074

theorem parts (x : Binary64) : x.Parts := by
  by_cases hsmall : x.magnitude < leadingBit
  · have hsig : x.significand = x.magnitude := if_pos hsmall
    have hexp : x.exponent = -1074 := if_pos hsmall
    refine ⟨?_, ?_, ?_, .inr hexp⟩ <;> simp [hsig, hexp]
    omega
  · have hsplit : x.magnitude / leadingBit * leadingBit + x.magnitude % leadingBit = x.magnitude :=
      Nat.div_add_mod' _ _
    have hrest : x.magnitude % leadingBit < leadingBit := Nat.mod_lt _ (by decide)
    have hquot : 1 ≤ x.magnitude / leadingBit := (Nat.one_le_div_iff (by decide)).2 (by omega)
    obtain ⟨k, hk⟩ := Nat.exists_eq_add_of_le' hquot
    have hsig : x.significand = leadingBit + x.magnitude % leadingBit := if_neg hsmall
    have hexp : x.exponent = (k : Int) - 1074 := by
      have : x.exponent = ((x.magnitude / leadingBit : Nat) : Int) - 1075 := if_neg hsmall
      omega
    refine ⟨?_, by omega, by omega, .inl (by omega)⟩
    rw [hk, Nat.add_mul, Nat.one_mul] at hsplit
    have hshift : (x.exponent + 1074).toNat = k := by omega
    rw [hshift, hsig]
    omega

theorem Parts.significand_pos {x : Binary64} (h : x.Parts) (hnonzero : x.magnitude ≠ 0) :
    0 < x.significand := by
  obtain hnormal | hleast := h.normal
  · exact Nat.lt_of_lt_of_le (by decide) hnormal
  · have hmagnitude := h.magnitude
    have hshift : (x.exponent + 1074).toNat = 0 := by omega
    rw [hshift, Nat.zero_mul] at hmagnitude
    omega

theorem Parts.exponent_le {x : Binary64} (h : x.Parts) (hfinite : x.isFinite = true) :
    x.exponent ≤ 971 := by
  by_contra hgreat
  have hshift : 2046 ≤ (x.exponent + 1074).toNat := by omega
  have hnormal : leadingBit ≤ x.significand := by
    obtain hnormal | hleast := h.normal
    · exact hnormal
    · omega
  have hmul := Nat.mul_le_mul_right leadingBit hshift
  have hmagnitude := h.magnitude
  have hless : x.magnitude < 0x7FF * leadingBit := of_decide_eq_true hfinite
  omega

/-- The distance from a float to the lower end of its interval, in steps of its significand: the step
below the least normal significand is half as long. -/
def gap (x : Binary64) : ℚ := if x.significand = leadingBit ∧ x.exponent ≠ -1074 then 1 / 4 else 1 / 2

/-- A quotient lies in the interval of a float. -/
def Around (x : Binary64) (r : ℚ) : Prop :=
  if x.significand % 2 = 0 then
    x.significand - x.gap ≤ r / 2 ^ x.exponent ∧ r / 2 ^ x.exponent ≤ x.significand + 1 / 2
  else x.significand - x.gap < r / 2 ^ x.exponent ∧ r / 2 ^ x.exponent < x.significand + 1 / 2

theorem Around.bounds {x : Binary64} {r : ℚ} (h : x.Around r) :
    x.significand - x.gap ≤ r / 2 ^ x.exponent ∧ r / 2 ^ x.exponent ≤ x.significand + 1 / 2 := by
  unfold Around at h
  split at h
  · exact h
  · exact ⟨h.1.le, h.2.le⟩

theorem Around.of_lt {x : Binary64} {r : ℚ} (hlow : (x.significand - x.gap) * 2 ^ x.exponent < r)
    (hhigh : r < (x.significand + 1 / 2) * 2 ^ x.exponent) : x.Around r := by
  have hpow : (0 : ℚ) < 2 ^ x.exponent := zpow_pos two_pos _
  rw [← lt_div_iff₀ hpow] at hlow
  rw [← div_lt_iff₀ hpow] at hhigh
  unfold Around
  split
  · exact ⟨hlow.le, hhigh.le⟩
  · exact ⟨hlow, hhigh⟩

theorem gap_le (x : Binary64) : 0 < x.gap ∧ x.gap ≤ 1 / 2 := by
  unfold gap
  split <;> norm_num

theorem leadingBit_cast : ((leadingBit : Nat) : ℚ) = 2 ^ (52 : Int) := by
  norm_num [leadingBit]

section Nearest

variable {x : Binary64} {num den : Nat} (hnum : 0 < num) (hden : 0 < den)
  (h : x.Around (num / den))
include hnum hden h

omit hnum in
/-- On the grid of the float itself its significand is nearest. -/
theorem roundScaled_of_around : roundScaled num den x.exponent = x.significand := by
  obtain ⟨hlow, hhigh⟩ := h.bounds
  obtain ⟨-, hgap⟩ := x.gap_le
  refine roundScaled_eq hden (by linarith) hhigh fun hodd => ?_
  rw [Around, if_neg (by omega)] at h
  exact ⟨by linarith, h.2⟩

/-- The grid is that of the float, unless the quotient lies below the least normal significand. -/
theorem unit_of_around
    (hreach : (leadingBit : ℚ) ≤ num / den / 2 ^ x.exponent ∨ x.exponent = -1074) :
    max (leadingPower num den - 52) (-1074) = x.exponent := by
  have hparts := x.parts
  have hpow : (0 : ℚ) < 2 ^ x.exponent := zpow_pos two_pos _
  obtain ⟨-, hhigh⟩ := h.bounds
  have hless : (num : ℚ) / den < 2 ^ (x.exponent + 53) := by
    have hbelow : (x.significand : ℚ) + 1 ≤ 2 ^ (53 : Int) := by
      have : x.significand + 1 ≤ 2 ^ 53 := hparts.below
      exact_mod_cast this
    rw [add_comm, zpow_add₀ two_ne_zero, ← div_lt_iff₀ hpow]
    linarith
  obtain ⟨hle, hlt⟩ := leadingPower_spec hnum hden
  have hupper : leadingPower num den < x.exponent + 53 :=
    (zpow_lt_zpow_iff_right₀ one_lt_two).1 (hle.trans_lt hless)
  obtain hreach | hleast := hreach
  · rw [leadingBit_cast, le_div_iff₀ hpow, ← zpow_add₀ two_ne_zero] at hreach
    have hlower : 52 + x.exponent < leadingPower num den + 1 :=
      (zpow_lt_zpow_iff_right₀ one_lt_two).1 (hreach.trans_lt hlt)
    have := hparts.least
    omega
  · omega

end Nearest

/-- What lies in the interval of a float is rounded to it. -/
theorem nearestMagnitude_eq {x : Binary64} {num den : Nat} (hnum : 0 < num) (hden : 0 < den)
    (h : x.Around (num / den)) : nearestMagnitude num den = x.magnitude := by
  have hparts := x.parts
  by_cases hreach : (leadingBit : ℚ) ≤ num / den / 2 ^ x.exponent ∨ x.exponent = -1074
  · have hunit := unit_of_around hnum hden h hreach
    simp only [nearestMagnitude, hunit, roundScaled_of_around hden h]
    exact hparts.magnitude.symm
  · -- the quotient lies just below the least normal significand, on the finer grid of the binade below
    rw [not_or, not_le] at hreach
    obtain ⟨hshort, hnormal⟩ := hreach
    obtain ⟨hlow, -⟩ := h.bounds
    have hpow : (0 : ℚ) < 2 ^ x.exponent := zpow_pos two_pos _
    have hsig : x.significand = leadingBit := by
      have hnear : (x.significand : ℚ) < leadingBit + 1 := by
        linarith [x.gap_le.2]
      have hnear : x.significand < leadingBit + 1 := by exact_mod_cast hnear
      have := hparts.normal.resolve_right hnormal
      omega
    have hgap : x.gap = 1 / 4 := if_pos ⟨hsig, hnormal⟩
    rw [hsig, hgap] at hlow
    have hpower : leadingPower num den = x.exponent + 51 := by
      apply leadingPower_eq hnum hden
      · rw [add_comm, zpow_add₀ two_ne_zero, ← le_div_iff₀ hpow]
        norm_num [leadingBit] at hlow ⊢
        linarith
      · rw [add_assoc, add_comm, zpow_add₀ two_ne_zero, ← div_lt_iff₀ hpow]
        rw [leadingBit_cast] at hshort
        norm_num at hshort ⊢
        exact hshort
    have hleast := hparts.least
    have hunit : max (leadingPower num den - 52) (-1074) = x.exponent - 1 := by omega
    have hdouble : (num : ℚ) / den / 2 ^ (x.exponent - 1) = 2 * (num / den / 2 ^ x.exponent) := by
      rw [zpow_sub₀ two_ne_zero, zpow_one]
      field_simp
    have hrounded : roundScaled num den (x.exponent - 1) = 2 * leadingBit := by
      apply roundScaled_eq hden
      · rw [hdouble]
        push_cast
        linarith
      · rw [hdouble]
        push_cast
        linarith
      · omega
    have hshift : (x.exponent + 1074).toNat = (x.exponent - 1 + 1074).toNat + 1 := by omega
    simp only [nearestMagnitude, hunit, hrounded]
    rw [hparts.magnitude, hsig, hshift, Nat.add_mul, Nat.one_mul]
    omega

end TierCache.Binary64
