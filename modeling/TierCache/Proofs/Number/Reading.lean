import TierCache.Proofs.Number.Shortest

/-!
Decimals are read as the float whose interval they lie in, and so every finite float is read back
from its shortest decimal.
-/
namespace TierCache.Binary64

theorem ofMagnitude_self (x : Binary64) : ofMagnitude x.isNegative x.magnitude = x := by
  have hbits : UInt64.ofNat x.bits.toNat = x.bits := UInt64.ofNat_toNat
  rw [ofMagnitude, ← x.bits_toNat, hbits]

theorem ofRatio_eq {x : Binary64} (hfinite : x.isFinite = true) {num den : Nat} (hnum : 0 < num)
    (hden : 0 < den) (h : x.Around (num / den)) : ofRatio x.isNegative num den = x := by
  have hless : x.magnitude < infiniteMagnitude := of_decide_eq_true hfinite
  rw [ofRatio, if_neg (by omega), nearestMagnitude_eq hnum hden h, min_eq_left hless.le,
    ofMagnitude_self]

/-- What lies in the interval of a finite float is between the powers next to the least and the
greatest one. -/
theorem Around.range {x : Binary64} (hfinite : x.isFinite = true) (hnonzero : x.magnitude ≠ 0) {r : ℚ}
    (h : x.Around r) : (2 : ℚ) ^ (-1075 : Int) ≤ r ∧ r < 2 ^ (1025 : Int) := by
  obtain ⟨hleast, hgreatest⟩ := Decimal.float_bounds hnonzero hfinite
  obtain ⟨hlow, hhigh⟩ := h.bounds
  have hpow : (0 : ℚ) < 2 ^ x.exponent := zpow_pos two_pos _
  have hone : (1 : ℚ) ≤ x.significand := by
    exact_mod_cast x.parts.significand_pos hnonzero
  have hscaled := mul_le_mul_of_nonneg_right hone hpow.le
  rw [le_div_iff₀ hpow] at hlow
  rw [div_le_iff₀ hpow] at hhigh
  constructor
  · have hhalf : (2 : ℚ) ^ (-1075 : Int) = 2 ^ (-1074 : Int) / 2 := by
      rw [show (-1075 : Int) = -1074 - 1 by norm_num, zpow_sub₀ two_ne_zero, zpow_one]
    have hgap := mul_le_mul_of_nonneg_right x.gap_le.2 hpow.le
    rw [hhalf]
    linarith
  · have hdouble : (2 : ℚ) ^ (1025 : Int) = 2 * 2 ^ (1024 : Int) := by
      rw [show (1025 : Int) = 1 + 1024 by norm_num, zpow_add₀ two_ne_zero, zpow_one]
    have hupper : ((x.significand : ℚ) + 1 / 2) * 2 ^ x.exponent ≤
        2 * (x.significand * 2 ^ x.exponent) := by
      rw [← mul_assoc]
      exact mul_le_mul_of_nonneg_right (by linarith) hpow.le
    exact (hhigh.trans hupper).trans_lt (hdouble ▸ mul_lt_mul_of_pos_left hgreatest two_pos)

/-- A decimal with few digits is read as the float around which it lies. -/
theorem ofDecimal_eq {x : Binary64} (hfinite : x.isFinite = true) (hnonzero : x.magnitude ≠ 0)
    {c : Nat} {k : Int} (hdigits : c < 10 ^ 18) (h : x.Around (c * 10 ^ k)) :
    ofDecimal x.isNegative c k = x := by
  obtain ⟨hleast, hgreatest⟩ := h.range hfinite hnonzero
  have hten : (0 : ℚ) < 10 ^ k := Decimal.ten_pow_pos k
  have hpos : 0 < c := by
    by_contra hzero
    rw [Nat.eq_zero_of_not_pos hzero, Nat.cast_zero, zero_mul] at hleast
    exact absurd hleast (not_le.2 (zpow_pos two_pos _))
  have hlog : (10 : ℚ) ^ ((Nat.log2 c : Int) * 3 / 10) ≤ c :=
    (Decimal.ten_le_two (.inl ⟨by omega, by omega⟩)).trans (log2_bounds hpos).1
  have hupper : ¬ 400 < k + (Nat.log2 c : Int) * 3 / 10 := by
    intro hlarge
    have hgreat : (2 : ℚ) ^ (1025 : Int) ≤ c * 10 ^ k := by
      calc (2 : ℚ) ^ (1025 : Int) ≤ 10 ^ (k + (Nat.log2 c : Int) * 3 / 10) :=
            Decimal.two_le_ten (.inl ⟨by omega, by omega⟩)
        _ = 10 ^ ((Nat.log2 c : Int) * 3 / 10) * 10 ^ k := by
            rw [← zpow_add₀ (by norm_num), add_comm]
        _ ≤ c * 10 ^ k := mul_le_mul_of_nonneg_right hlog hten.le
    exact absurd hgreatest (not_lt.2 hgreat)
  have hlower : ¬ k + (Nat.log2 c : Int) * 3 / 10 < -2000 := by
    intro hsmall
    have hfew : (c : ℚ) ≤ 10 ^ (18 : Int) := by exact_mod_cast hdigits.le
    have hless : (c : ℚ) * 10 ^ k < 2 ^ (-1075 : Int) := by
      calc (c : ℚ) * 10 ^ k ≤ 10 ^ (18 : Int) * 10 ^ k := mul_le_mul_of_nonneg_right hfew hten.le
        _ = 10 ^ (18 + k) := (zpow_add₀ (by norm_num) _ _).symm
        _ ≤ 2 ^ (-1076 : Int) := Decimal.ten_le_two (.inr ⟨by omega, by omega⟩)
        _ < 2 ^ (-1075 : Int) := (zpow_lt_zpow_iff_right₀ one_lt_two).2 (by decide)
    exact absurd hleast (not_le.2 hless)
  rw [ofDecimal, if_neg hpos.ne']
  simp only [hupper, hlower, if_false]
  by_cases hk : 0 ≤ k
  · rw [if_pos hk]
    refine ofRatio_eq hfinite (Nat.mul_pos hpos (Nat.pow_pos (by decide))) one_pos ?_
    rw [(zpow_cases 10 k).1 hk] at h
    push_cast [Nat.pow_eq]
    rwa [div_one]
  · rw [if_neg hk]
    refine ofRatio_eq hfinite hpos (Nat.pow_pos (by decide)) ?_
    rw [(zpow_cases 10 k).2 (by omega)] at h
    push_cast [Nat.pow_eq]
    rwa [mul_one_div] at h

end TierCache.Binary64
