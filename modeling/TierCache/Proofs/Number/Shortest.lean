import Mathlib.Tactic.Ring
import TierCache.Number.Decimal
import TierCache.Proofs.Number.Rounding

/-!
The shortest decimal of a float reads back as the float. Seventeen digits always suffice, since the
steps of the decimal grid are then shorter than the interval around the float.
-/
namespace TierCache

namespace Decimal

/-- The number that a decimal stands for. -/
def toRat (d : Decimal) : ℚ := d.digits * 10 ^ d.exponent

theorem ten_pow_pos (k : Int) : (0 : ℚ) < 10 ^ k := zpow_pos (by norm_num) k

/-! ### Targets -/

namespace Target

/-- What a quotient must be to hit the target. -/
def Hit (t : Target) (r : ℚ) : Prop :=
  if t.closed then (t.low : ℚ) / t.den ≤ r ∧ r ≤ t.high / t.den
  else (t.low : ℚ) / t.den < r ∧ r < t.high / t.den

theorem holds_iff {t : Target} (hden : 0 < t.den) (d : Decimal) :
    t.holds d = true ↔ t.Hit d.toRat := by
  have hpos : (0 : ℚ) < t.den := by exact_mod_cast hden
  -- both sides over one denominator
  have hside (s n : Nat) (hs : 0 < s) (hn : (n : ℚ) / (s * t.den) = d.toRat) (bound : Nat) :
      ((bound : ℚ) / t.den ≤ d.toRat ↔ bound * s ≤ n) ∧
      (d.toRat ≤ bound / t.den ↔ n ≤ bound * s) ∧
      ((bound : ℚ) / t.den < d.toRat ↔ bound * s < n) ∧
      (d.toRat < bound / t.den ↔ n < bound * s) := by
    have hspos : (0 : ℚ) < s := by exact_mod_cast hs
    have hbound : (bound : ℚ) / t.den = (bound * s : Nat) / (s * t.den) := by
      push_cast
      field_simp
    have hprod : (0 : ℚ) < s * t.den := mul_pos hspos hpos
    rw [hbound, ← hn]
    refine ⟨?_, ?_, ?_, ?_⟩
    · rw [div_le_div_iff_of_pos_right hprod, Nat.cast_le]
    · rw [div_le_div_iff_of_pos_right hprod, Nat.cast_le]
    · rw [div_lt_div_iff_of_pos_right hprod, Nat.cast_lt]
    · rw [div_lt_div_iff_of_pos_right hprod, Nat.cast_lt]
  have hsplit (s n : Nat) (hs : 0 < s) (hn : (n : ℚ) / (s * t.den) = d.toRat) :
      (if t.closed then decide (t.low * s ≤ n) && decide (n ≤ t.high * s)
        else decide (t.low * s < n) && decide (n < t.high * s)) = true ↔ t.Hit d.toRat := by
    unfold Hit
    cases t.closed
    · simp [(hside s n hs hn _).2.2.1, (hside s n hs hn _).2.2.2]
    · simp [(hside s n hs hn _).1, (hside s n hs hn _).2.1]
  unfold holds
  by_cases hexp : 0 ≤ d.exponent
  · simp only [hexp, if_true]
    refine hsplit 1 _ one_pos ?_
    rw [toRat, (Binary64.zpow_cases 10 d.exponent).1 hexp]
    push_cast [Nat.pow_eq]
    field_simp
  · simp only [hexp, if_false]
    refine hsplit (Nat.pow 10 (-d.exponent).toNat) _ (Nat.pow_pos (by decide)) ?_
    rw [toRat, (Binary64.zpow_cases 10 d.exponent).2 (by omega)]
    push_cast [Nat.pow_eq]
    field_simp

/-- The grid point below the value, and the one above it. -/
theorem below_spec {t : Target} (hden : 0 < t.den) (k : Int) :
    ((t.below k).1 : ℚ) * 10 ^ k ≤ t.value / t.den ∧
      (t.value : ℚ) / t.den < ((t.below k).1 + 1) * 10 ^ k := by
  have hpos : (0 : ℚ) < t.den := by exact_mod_cast hden
  -- the value over the grid step is a quotient of natural numbers
  have hquot (num den : Nat) (hd : 0 < den) (hn : (num : ℚ) / den = t.value / t.den / 10 ^ k) :
      (((num / den : Nat) : ℚ) * 10 ^ k ≤ t.value / t.den) ∧
        (t.value : ℚ) / t.den < ((num / den : Nat) + 1) * 10 ^ k := by
    have hdpos : (0 : ℚ) < den := by exact_mod_cast hd
    rw [← le_div_iff₀ (ten_pow_pos k), ← div_lt_iff₀ (ten_pow_pos k), ← hn]
    constructor
    · rw [le_div_iff₀ hdpos]
      exact_mod_cast Nat.div_mul_le_self num den
    · rw [div_lt_iff₀ hdpos]
      exact_mod_cast Nat.lt_mul_of_div_lt (Nat.lt_succ_self _) hd
  unfold below
  by_cases hk : 0 ≤ k
  · simp only [hk, if_true]
    refine hquot _ _ (Nat.mul_pos hden (Nat.pow_pos (by decide))) ?_
    rw [(Binary64.zpow_cases 10 k).1 hk]
    push_cast [Nat.pow_eq]
    rw [div_div]
  · simp only [hk, if_false]
    refine hquot _ _ hden ?_
    rw [(Binary64.zpow_cases 10 k).2 (by omega)]
    push_cast [Nat.pow_eq]
    field_simp

/-! ### The target of a float -/

section OfFloat

variable {x : Binary64}

theorem den_pos (x : Binary64) : 0 < (ofFloat x).den := by
  simp only [ofFloat]
  split
  · decide
  · exact Nat.mul_pos (by decide) (Nat.pow_pos (by decide))

/-- Quarters of a step of the significand, over the target's denominator. -/
theorem quarters (x : Binary64) (n : Nat) :
    ((n * (if 0 ≤ x.exponent then Nat.pow 2 x.exponent.toNat else 1) : Nat) : ℚ) / (ofFloat x).den =
      n / 4 * 2 ^ x.exponent := by
  simp only [ofFloat]
  by_cases hexp : 0 ≤ x.exponent
  · rw [if_pos hexp, if_pos hexp, (Binary64.zpow_cases 2 _).1 hexp]
    push_cast [Nat.pow_eq]
    ring
  · rw [if_neg hexp, if_neg hexp, (Binary64.zpow_cases 2 _).2 (by omega)]
    push_cast [Nat.pow_eq]
    field_simp

theorem value_ofFloat (x : Binary64) :
    ((ofFloat x).value : ℚ) / (ofFloat x).den = x.significand * 2 ^ x.exponent := by
  have hquarters := quarters x (4 * x.significand)
  have hvalue : (ofFloat x).value =
      4 * x.significand * (if 0 ≤ x.exponent then Nat.pow 2 x.exponent.toNat else 1) := by
    simp only [ofFloat]
    split <;> rfl
  rw [hvalue, hquarters]
  push_cast
  ring

theorem high_ofFloat (x : Binary64) :
    ((ofFloat x).high : ℚ) / (ofFloat x).den = (x.significand + 1 / 2) * 2 ^ x.exponent := by
  have hquarters := quarters x (4 * x.significand + 2)
  have hhigh : (ofFloat x).high =
      (4 * x.significand + 2) * (if 0 ≤ x.exponent then Nat.pow 2 x.exponent.toNat else 1) := by
    simp only [ofFloat]
    split <;> rfl
  rw [hhigh, hquarters]
  push_cast
  ring

theorem low_ofFloat (hsig : 0 < x.significand) :
    ((ofFloat x).low : ℚ) / (ofFloat x).den = (x.significand - x.gap) * 2 ^ x.exponent := by
  by_cases hnarrow : x.significand = Binary64.leadingBit ∧ x.exponent ≠ -1074
  · have hquarters := quarters x (4 * x.significand - 1)
    have hlow : (ofFloat x).low =
        (4 * x.significand - 1) * (if 0 ≤ x.exponent then Nat.pow 2 x.exponent.toNat else 1) := by
      simp only [ofFloat, hnarrow, and_self, if_true, ne_eq, not_false_eq_true]
    rw [hlow, hquarters, Binary64.gap, if_pos hnarrow, Nat.cast_sub (by omega)]
    push_cast
    ring
  · have hquarters := quarters x (4 * x.significand - 2)
    have hlow : (ofFloat x).low =
        (4 * x.significand - 2) * (if 0 ≤ x.exponent then Nat.pow 2 x.exponent.toNat else 1) := by
      simp only [ofFloat, hnarrow, if_false]
    rw [hlow, hquarters, Binary64.gap, if_neg hnarrow, Nat.cast_sub (by omega)]
    push_cast
    ring

theorem hit_ofFloat (hsig : 0 < x.significand) (r : ℚ) : (ofFloat x).Hit r ↔ x.Around r := by
  have hpow : (0 : ℚ) < 2 ^ x.exponent := zpow_pos two_pos _
  have hclosed : (ofFloat x).closed = decide (x.significand % 2 = 0) := by
    simp only [ofFloat]
  rw [Hit, Binary64.Around, low_ofFloat hsig, high_ofFloat, hclosed]
  simp only [decide_eq_true_eq, le_div_iff₀ hpow, div_le_iff₀ hpow, lt_div_iff₀ hpow,
    div_lt_iff₀ hpow]

end OfFloat

/-! ### The search -/

section Search

variable {t : Target} (hden : 0 < t.den)
include hden

theorem magnitude_spec (fuel : Nat) (k : Int) (hfuel : (t.value : ℚ) / t.den < 10 ^ (k + fuel)) :
    (t.value : ℚ) / t.den < 10 ^ t.magnitude fuel k ∧
      (t.magnitude fuel k = k ∨ (10 : ℚ) ^ (t.magnitude fuel k - 1) ≤ t.value / t.den) := by
  induction fuel generalizing k with
  | zero => exact ⟨by simpa [magnitude] using hfuel, .inl rfl⟩
  | succ fuel ih =>
    obtain ⟨hle, hlt⟩ := below_spec hden k
    unfold magnitude
    split
    · rename_i hzero
      rw [hzero] at hlt
      exact ⟨by simpa using hlt, .inl rfl⟩
    · rename_i hsome
      have hreached : (10 : ℚ) ^ k ≤ t.value / t.den := by
        have hone : (1 : ℚ) ≤ (t.below k).1 := by exact_mod_cast Nat.one_le_iff_ne_zero.2 hsome
        exact (le_mul_of_one_le_left (ten_pow_pos k).le hone).trans hle
      obtain ⟨hupper, hlower⟩ := ih (k + 1) (by rwa [add_assoc, add_comm (1 : Int)])
      refine ⟨hupper, .inr ?_⟩
      obtain hsame | hlower := hlower
      · rwa [hsame, add_sub_cancel_right]
      · exact hlower

/-- When seventeen digits hit the target, the search hits it, with no more digits. -/
theorem shortestFrom_spec {top : Int} (htop : (t.value : ℚ) / t.den < 10 ^ top)
    (hseventeen : t.holds ⟨(t.below (top - (17 : Nat))).1, top - (17 : Nat)⟩ = true ∨
      t.holds ⟨(t.below (top - (17 : Nat))).1 + 1, top - (17 : Nat)⟩ = true)
    (fuel count : Nat) (hcount : count + fuel = 17) :
    t.holds (t.shortestFrom top (fuel + 1) count) = true ∧
      (t.shortestFrom top (fuel + 1) count).digits ≤ 10 ^ 17 := by
  have hdigits (count : Nat) (hcount : count ≤ 17) : (t.below (top - count)).1 + 1 ≤ 10 ^ 17 := by
    obtain ⟨hle, -⟩ := below_spec hden (top - count)
    have hless : ((t.below (top - count)).1 : ℚ) < 10 ^ count := by
      have hboth := hle.trans_lt htop
      rw [← lt_div_iff₀ (ten_pow_pos _), ← zpow_sub₀ (by norm_num), sub_sub_cancel,
        zpow_natCast] at hboth
      exact hboth
    have hless : (t.below (top - count)).1 < 10 ^ count := by exact_mod_cast hless
    have := Nat.pow_le_pow_right (show 0 < 10 by decide) hcount
    omega
  induction fuel generalizing count with
  | zero =>
    obtain rfl : count = 17 := hcount
    have hmax := hdigits 17 (by decide)
    unfold shortestFrom
    dsimp only
    split
    · split <;> exact ⟨by assumption, by dsimp only; omega⟩
    · exact ⟨by assumption, by dsimp only; omega⟩
    · exact ⟨by assumption, by dsimp only; omega⟩
    · rename_i hdown hup
      rw [hdown, hup] at hseventeen
      simp at hseventeen
  | succ fuel ih =>
    have hmax := hdigits count (by omega)
    unfold shortestFrom
    dsimp only
    split
    · split <;> exact ⟨by assumption, by dsimp only; omega⟩
    · exact ⟨by assumption, by dsimp only; omega⟩
    · exact ⟨by assumption, by dsimp only; omega⟩
    · exact ih (count + 1) (by omega)

end Search

end Target

/-- Zeros at the end of the digits are moved to the exponent. -/
theorem trimmed_spec (fuel : Nat) (d : Decimal) :
    (trimmed fuel d).toRat = d.toRat ∧ (trimmed fuel d).digits ≤ d.digits := by
  induction fuel generalizing d with
  | zero => exact ⟨rfl, le_rfl⟩
  | succ fuel ih =>
    unfold trimmed
    split
    · rename_i hzero
      obtain ⟨hvalue, hle⟩ := ih ⟨d.digits / 10, d.exponent + 1⟩
      refine ⟨hvalue.trans ?_, hle.trans (Nat.div_le_self _ _)⟩
      have hsplit : (d.digits : ℚ) = (d.digits / 10 : Nat) * 10 := by
        exact_mod_cast (Nat.div_mul_cancel (Nat.dvd_of_mod_eq_zero hzero.2)).symm
      simp only [toRat]
      rw [hsplit, zpow_add₀ (by norm_num), zpow_one]
      ring
    · exact ⟨rfl, le_rfl⟩

/-! ### Powers of two and of ten -/

/-- Powers compare as their powers by a common natural number. -/
theorem zpow_le_of_pow {a b : ℚ} (ha : 0 < a) (hb : 0 < b) {n : Nat} (hn : n ≠ 0) {g l : Int}
    (h : a ^ ((n : Int) * g) ≤ b ^ ((n : Int) * l)) : a ^ g ≤ b ^ l := by
  rw [mul_comm, zpow_mul, zpow_natCast, mul_comm, zpow_mul, zpow_natCast] at h
  exact (pow_le_pow_iff_left₀ (zpow_pos ha g).le (zpow_pos hb l).le hn).1 h

/-- A thousand is less than the tenth power of two. -/
theorem ten_le_two_of_nonneg {g l : Int} (hg : 0 ≤ g) (h : 10 * g ≤ 3 * l) :
    (10 : ℚ) ^ g ≤ 2 ^ l := by
  refine zpow_le_of_pow (n := 3) (by norm_num) two_pos (by decide) ?_
  calc (10 : ℚ) ^ ((3 : Nat) * g : Int) = (10 ^ (3 : Int)) ^ g := zpow_mul _ _ _
    _ ≤ (2 ^ (10 : Int)) ^ g := zpow_le_zpow_left₀ hg (by norm_num) (by norm_num)
    _ = 2 ^ (10 * g) := (zpow_mul _ _ _).symm
    _ ≤ 2 ^ ((3 : Nat) * l : Int) := zpow_le_zpow_right₀ one_le_two h

/-- The ninety-third power of two is less than the twenty-eighth of ten. -/
theorem two_le_ten_of_nonneg {l g : Int} (hg : 0 ≤ g) (h : 28 * l ≤ 93 * g) :
    (2 : ℚ) ^ l ≤ 10 ^ g := by
  refine zpow_le_of_pow (n := 28) two_pos (by norm_num) (by decide) ?_
  calc (2 : ℚ) ^ ((28 : Nat) * l : Int) ≤ 2 ^ (93 * g) := zpow_le_zpow_right₀ one_le_two h
    _ = (2 ^ (93 : Int)) ^ g := zpow_mul _ _ _
    _ ≤ (10 ^ (28 : Int)) ^ g := zpow_le_zpow_left₀ hg (by norm_num) (by norm_num)
    _ = 10 ^ ((28 : Nat) * g : Int) := (zpow_mul _ _ _).symm

theorem ten_le_two {g l : Int} (h : 0 ≤ g ∧ 10 * g ≤ 3 * l ∨ g ≤ 0 ∧ 93 * g ≤ 28 * l) :
    (10 : ℚ) ^ g ≤ 2 ^ l := by
  obtain ⟨hg, h⟩ | ⟨hg, h⟩ := h
  · exact ten_le_two_of_nonneg hg h
  · have hinv : (2 : ℚ) ^ (-l) ≤ 10 ^ (-g) := two_le_ten_of_nonneg (by omega) (by omega)
    rwa [zpow_neg, zpow_neg, inv_le_inv₀ (zpow_pos two_pos l) (ten_pow_pos g)] at hinv

theorem two_le_ten {l g : Int} (h : 0 ≤ g ∧ 28 * l ≤ 93 * g ∨ g ≤ 0 ∧ 3 * l ≤ 10 * g) :
    (2 : ℚ) ^ l ≤ 10 ^ g := by
  obtain ⟨hg, h⟩ | ⟨hg, h⟩ := h
  · exact two_le_ten_of_nonneg hg h
  · have hinv : (10 : ℚ) ^ (-g) ≤ 2 ^ (-l) := ten_le_two_of_nonneg (by omega) (by omega)
    rwa [zpow_neg, zpow_neg, inv_le_inv₀ (ten_pow_pos g) (zpow_pos two_pos l)] at hinv

/-! ### Floats -/

section Float

variable {x : Binary64} (hnonzero : x.magnitude ≠ 0)
include hnonzero

/-- A finite float lies between the least and the greatest one. -/
theorem float_bounds (hfinite : x.isFinite = true) :
    (2 : ℚ) ^ (-1074 : Int) ≤ x.significand * 2 ^ x.exponent ∧
      (x.significand : ℚ) * 2 ^ x.exponent < 2 ^ (1024 : Int) := by
  have hparts := x.parts
  have hpow (k : Int) : (0 : ℚ) < 2 ^ k := zpow_pos two_pos k
  constructor
  · have hone : (1 : ℚ) ≤ x.significand := by exact_mod_cast hparts.significand_pos hnonzero
    calc (2 : ℚ) ^ (-1074 : Int) ≤ 2 ^ x.exponent := zpow_le_zpow_right₀ one_le_two hparts.least
      _ ≤ x.significand * 2 ^ x.exponent := le_mul_of_one_le_left (hpow _).le hone
  · have hless : (x.significand : ℚ) < 2 ^ (53 : Int) := by
      have : x.significand < 2 ^ 53 := hparts.below
      exact_mod_cast this
    calc (x.significand : ℚ) * 2 ^ x.exponent < 2 ^ (53 : Int) * 2 ^ x.exponent :=
          mul_lt_mul_of_pos_right hless (hpow _)
      _ = 2 ^ (53 + x.exponent) := (zpow_add₀ two_ne_zero _ _).symm
      _ ≤ 2 ^ (1024 : Int) :=
          zpow_le_zpow_right₀ one_le_two (by have := hparts.exponent_le hfinite; omega)

/-- The guess is at most one too great, and the search for the decimal exponent goes far enough. -/
theorem top_spec (hfinite : x.isFinite = true) :
    let top := (Target.ofFloat x).magnitude 80 (Target.ofFloat x).guess
    (10 : ℚ) ^ (top - 1) ≤ x.significand * 2 ^ x.exponent ∧
      (x.significand : ℚ) * 2 ^ x.exponent < 10 ^ top := by
  obtain ⟨hleast, hgreatest⟩ := float_bounds hnonzero hfinite
  have hden := Target.den_pos x
  have hvalue : 0 < (Target.ofFloat x).value := by
    by_contra hzero
    have hquot := Target.value_ofFloat x
    rw [Nat.eq_zero_of_not_pos hzero, Nat.cast_zero, zero_div] at hquot
    rw [← hquot] at hleast
    exact absurd hleast (not_le.2 (zpow_pos two_pos _))
  obtain ⟨hlow, hhigh⟩ := Binary64.quotient_bounds hvalue hden
  have hsearch := Target.magnitude_spec hden 80 (Target.ofFloat x).guess
  rw [Target.value_ofFloat] at hlow hhigh hsearch
  have hguess : (Target.ofFloat x).guess =
      if ((Nat.log2 (Target.ofFloat x).value : Int) - Nat.log2 (Target.ofFloat x).den) * 3 / 10 - 2 < 0
      then (((Nat.log2 (Target.ofFloat x).value : Int) - Nat.log2 (Target.ofFloat x).den) * 3 / 10 - 2) *
        11 / 10 - 2
      else ((Nat.log2 (Target.ofFloat x).value : Int) - Nat.log2 (Target.ofFloat x).den) * 3 / 10 - 2 :=
    rfl
  generalize (Nat.log2 (Target.ofFloat x).value : Int) - Nat.log2 (Target.ofFloat x).den = power
    at hlow hhigh hguess
  have hpower₁ : power - 1 < 1024 :=
    (zpow_lt_zpow_iff_right₀ one_lt_two).1 (hlow.trans hgreatest)
  have hpower₂ : -1074 < power + 1 :=
    (zpow_lt_zpow_iff_right₀ one_lt_two).1 (hleast.trans_lt hhigh)
  have hfits : (10 : ℚ) ^ ((Target.ofFloat x).guess - 1) ≤ x.significand * 2 ^ x.exponent := by
    refine (ten_le_two ?_).trans hlow.le
    split at hguess <;> omega
  have hreaches : (x.significand : ℚ) * 2 ^ x.exponent < 10 ^ ((Target.ofFloat x).guess + (80 : Nat)) := by
    refine hhigh.trans_le (two_le_ten ?_)
    split at hguess <;> omega
  obtain ⟨hupper, hlower⟩ := hsearch hreaches
  refine ⟨?_, hupper⟩
  obtain hsame | hlower := hlower
  · rwa [hsame]
  · exact hlower

/-- Seventeen digits hit the target. -/
theorem seventeen {top : Int} (htop : (10 : ℚ) ^ (top - 1) ≤ x.significand * 2 ^ x.exponent) :
    (Target.ofFloat x).holds ⟨((Target.ofFloat x).below (top - (17 : Nat))).1, top - (17 : Nat)⟩ = true ∨
      (Target.ofFloat x).holds
        ⟨((Target.ofFloat x).below (top - (17 : Nat))).1 + 1, top - (17 : Nat)⟩ = true := by
  have hparts := x.parts
  have hsig := hparts.significand_pos hnonzero
  have hden := Target.den_pos x
  have hpow : (0 : ℚ) < 2 ^ x.exponent := zpow_pos two_pos _
  obtain ⟨hle, hlt⟩ := Target.below_spec hden (top - (17 : Nat))
  rw [Target.value_ofFloat] at hle hlt
  -- the decimal step over the binary one
  have hstep : (10 : ℚ) ^ (top - (17 : Nat)) * 10 ^ 16 ≤ x.significand * 2 ^ x.exponent := by
    have hsplit : (10 : ℚ) ^ (top - (17 : Nat)) * 10 ^ 16 = 10 ^ (top - 1) := by
      rw [← zpow_natCast, ← zpow_add₀ (by norm_num)]
      congr 1
      omega
    rwa [hsplit]
  rw [Target.holds_iff hden, Target.holds_iff hden, Target.hit_ofFloat hsig, Target.hit_ofFloat hsig]
  simp only [toRat, Nat.cast_add, Nat.cast_one]
  generalize (10 : ℚ) ^ (top - (17 : Nat)) = step at hle hlt hstep ⊢
  generalize ((Target.ofFloat x).below (top - (17 : Nat))).1 = q at hle hlt ⊢
  have hshort : step < (x.gap + 1 / 2) * 2 ^ x.exponent := by
    by_cases hnarrow : x.significand = Binary64.leadingBit ∧ x.exponent ≠ -1074
    · rw [hnarrow.1, Binary64.leadingBit_cast] at hstep
      rw [Binary64.gap, if_pos hnarrow]
      norm_num at hstep ⊢
      linarith
    · have hless : (x.significand : ℚ) ≤ 2 ^ 53 := by exact_mod_cast hparts.below.le
      have hupper := hstep.trans (mul_le_mul_of_nonneg_right hless hpow.le)
      rw [Binary64.gap, if_neg hnarrow]
      norm_num at hupper ⊢
      linarith
  -- the decimal below is inside the interval, or else so far down that the one above is inside
  by_cases hinside : (x.significand - x.gap) * 2 ^ x.exponent < q * step
  · left
    apply Binary64.Around.of_lt hinside
    linarith
  · right
    rw [not_lt] at hinside
    apply Binary64.Around.of_lt
    · have := mul_pos x.gap_le.1 hpow
      linarith
    · linarith

theorem shortest_spec (hfinite : x.isFinite = true) :
    x.Around (shortest x).toRat ∧ 0 < (shortest x).digits ∧ (shortest x).digits ≤ 10 ^ 17 := by
  have hsig := x.parts.significand_pos hnonzero
  have hden := Target.den_pos x
  obtain ⟨htop, hless⟩ := top_spec hnonzero hfinite
  obtain ⟨hholds, hdigits⟩ := Target.shortestFrom_spec hden (by rwa [Target.value_ofFloat])
    (seventeen hnonzero htop) 16 1 rfl
  obtain ⟨hvalue, hfewer⟩ := trimmed_spec 20 ((Target.ofFloat x).shortestFrom
    ((Target.ofFloat x).magnitude 80 (Target.ofFloat x).guess) 17 1)
  have haround : x.Around (shortest x).toRat := by
    rw [Target.holds_iff hden, Target.hit_ofFloat hsig, ← hvalue] at hholds
    exact hholds
  refine ⟨haround, ?_, hfewer.trans hdigits⟩
  by_contra hnone
  obtain ⟨hlow, -⟩ := haround.bounds
  have hone : (1 : ℚ) ≤ x.significand := by exact_mod_cast hsig
  rw [toRat, Nat.eq_zero_of_not_pos hnone, Nat.cast_zero, zero_mul, zero_div] at hlow
  linarith [x.gap_le.2]

end Float

end Decimal
end TierCache
