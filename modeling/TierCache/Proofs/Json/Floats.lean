import Mathlib.Algebra.Ring.Nat
import TierCache.Proofs.Json.Numerals

/-!
The two notations of a decimal are read as that decimal: no digit is lost and the power of ten is
the one that was meant.
-/
namespace TierCache.Json

/-- A fraction, with what comes after its digits. -/
theorem scanFraction_point {ds rest : List Char} (hds : ∀ c ∈ ds, c.isDigit = true) (hsome : ds ≠ [])
    (hrest : NoDigit rest) (n : Numeral) :
    scanFraction n ('.' :: (ds ++ rest)) =
      scanPower { n with
        coefficient := Nat.ofDigitChars 10 ds n.coefficient
        exponent := -(ds.length : Int)
        integral := false } rest := by
  have hscan := scanDigits_append hds hrest n.coefficient 0
  have hcount := List.length_pos_iff.2 hsome
  simp only [scanFraction, hscan]
  split
  · rename_i heq
    simp only [Prod.mk.injEq] at heq
    omega
  · rename_i heq
    simp only [Prod.mk.injEq] at heq
    obtain ⟨hvalue, hplaces, hleft⟩ := heq
    rw [hvalue, hleft, ← hplaces, Nat.zero_add]

theorem scanExponent_digits {rest : List Char} (h : NoDigit rest) (n : Numeral) (negative : Bool)
    (k : Nat) :
    scanExponent n negative (Nat.toDigits 10 k ++ rest) =
      some ({ n with
        exponent := n.exponent + (if negative then -(k : Int) else k)
        integral := false }, rest) := by
  have hscan := scanDigits_append (fun _ => isDigit_of_mem_digits (n := k)) h 0 0
  have hcount := List.length_pos_iff.2 (Nat.toDigits_ne_nil (n := k) (b := 10))
  simp only [scanExponent, hscan, Nat.ofDigitChars_ten_toDigits]
  split
  · rename_i heq
    simp only [Prod.mk.injEq] at heq
    omega
  · rename_i heq
    simp only [Prod.mk.injEq] at heq
    obtain ⟨rfl, -, rfl⟩ := heq
    rfl

/-- The text of an integer: a sign if it is negative, and its digits. -/
theorem toList_int (n : Int) :
    (toString n).toList =
      if n < 0 then '-' :: Nat.toDigits 10 n.natAbs else Nat.toDigits 10 n.natAbs := by
  rw [Int.toString_eq_repr, Int.repr_eq_if]
  by_cases h : 0 ≤ n
  · have habs : n.natAbs = n.toNat := by omega
    rw [if_pos h, if_neg (by omega), Nat.toList_repr, habs]
  · have habs : n.natAbs = (-n).toNat := by omega
    rw [if_neg h, if_pos (by omega), String.toList_append, Nat.toList_repr, habs]
    rfl

theorem scanPower_int {rest : List Char} (h : NoDigit rest) (n : Numeral) (power : Int) :
    scanPower n ('e' :: ((toString power).toList ++ rest)) =
      some ({ n with exponent := n.exponent + power, integral := false }, rest) := by
  have hexponent := scanExponent_digits h n
  rw [toList_int]
  by_cases hneg : power < 0
  · have hpower : -(power.natAbs : Int) = power := by omega
    simp only [scanPower, hneg, hexponent, hpower, List.cons_append, Bool.true_or, decide_true,
      if_true]
  · have hpower : (power.natAbs : Int) = power := by omega
    simp only [hneg, if_false]
    -- a digit is no sign
    have hdigit : ∀ c cs, Nat.toDigits 10 power.natAbs ++ rest = c :: cs → c.isDigit = true := by
      intro c cs heq
      have hhead := congrArg List.head? heq
      rw [List.head?_append, List.head?_eq_some_head Nat.toDigits_ne_nil, Option.some_or] at hhead
      obtain rfl := Option.some.inj hhead
      exact isDigit_of_mem_digits (List.head_mem _)
    simp only [scanPower, Bool.true_or, decide_true, if_true]
    split
    · rename_i heq
      exact absurd (hdigit _ _ heq) (by decide)
    · rename_i heq
      exact absurd (hdigit _ _ heq) (by decide)
    · simp only [hexponent, hpower, Bool.false_eq_true, if_false]

/-! ### The two notations -/

theorem digitText_eq (d : Decimal) : d.digitText = Nat.toDigits 10 d.digits := by
  rw [Decimal.digitText, Nat.toString_eq_repr, Nat.toList_repr]

section Notation

variable {d : Decimal} {rest : List Char} (hrest : Stops rest) (negative : Bool)
include hrest

/-- A whole number is written with its zeros and a point, so one more zero belongs to its digits. -/
theorem scanNumber_whole (hdigits : 0 < d.digits) (hwhole : 0 ≤ d.exponent) :
    scanNumber negative (d.positional ++ ['.', '0'] ++ rest) =
      some (⟨negative, d.digits * 10 ^ d.exponent.toNat * 10, -1, false⟩, rest) := by
  have hleading : Leading (Nat.toDigits 10 d.digits ++ List.replicate d.exponent.toNat '0') := by
    refine ⟨?_, ?_, ?_⟩
    · intro c hc
      rw [List.mem_append, List.mem_replicate] at hc
      obtain hc | ⟨-, rfl⟩ := hc
      · exact isDigit_of_mem_digits hc
      · rfl
    · simp [Nat.toDigits_ne_nil]
    · intro hzero
      rw [List.head?_append, List.head?_eq_some_head Nat.toDigits_ne_nil, Option.some_or,
        ← List.head?_eq_some_head] at hzero
      exact absurd hzero (head_digits_ne_zero hdigits)
  have hpoint : NoDigit (['.', '0'] ++ rest) := by
    rintro c ⟨⟩
    rfl
  have hfraction := scanFraction_point leading_zero.digits leading_zero.some hrest.noDigit
    ⟨negative, d.digits * 10 ^ d.exponent.toNat, 0, true⟩
  rw [Decimal.positional, if_pos hwhole, digitText_eq, List.append_assoc,
    scanNumber_append hleading hpoint, Nat.ofDigitChars_append, Nat.ofDigitChars_replicate_zero,
    Nat.ofDigitChars_ten_toDigits, Nat.mul_comm]
  refine hfraction.trans ?_
  rw [scanPower_stop hrest]
  simp [Nat.ofDigitChars_cons, Nat.mul_comm]

/-- With a point among its digits or zeros before them, a number keeps its decimal. -/
theorem scanNumber_positional (hbroken : d.exponent < 0) :
    scanNumber negative (d.positional ++ rest) =
      some (⟨negative, d.digits, d.exponent, false⟩, rest) := by
  have hleading := leading_digits d.digits
  rw [Decimal.positional, if_neg (by omega), digitText_eq]
  generalize hds : Nat.toDigits 10 d.digits = ds at hleading
  have hvalue : Nat.ofDigitChars 10 ds 0 = d.digits := by
    rw [← hds, Nat.ofDigitChars_ten_toDigits]
  dsimp only
  split
  · rename_i hpoint
    generalize hsplit : ((ds.length : Int) + d.exponent).toNat = k
    have hk : k < ds.length := by omega
    have hjoined := Nat.ofDigitChars_append (b := 10) (l := ds.take k) (m := ds.drop k) 0
    rw [List.take_append_drop, hvalue] at hjoined
    have hbefore : Leading (ds.take k) := by
      refine ⟨fun c hc => hleading.digits c (List.mem_of_mem_take hc), ?_, ?_⟩
      · rw [List.ne_nil_iff_length_pos, List.length_take]
        omega
      · intro hzero
        rw [List.head?_take, if_neg (by omega)] at hzero
        rw [hleading.zero hzero] at hk ⊢
        rw [List.take_of_length_le (by simp at hk ⊢; omega)]
    have hafter : ds.drop k ≠ [] := by
      rw [List.ne_nil_iff_length_pos, List.length_drop]
      omega
    have hstop : NoDigit ('.' :: (ds.drop k ++ rest)) := by
      rintro c ⟨⟩
      rfl
    rw [List.append_assoc, List.cons_append, scanNumber_append hbefore hstop,
      scanFraction_point (fun c hc => hleading.digits c (List.mem_of_mem_drop hc)) hafter
        hrest.noDigit, scanPower_stop hrest]
    simp only [← hjoined, List.length_drop]
    congr 4
    omega
  · rename_i hpoint
    generalize hzeros : (-((ds.length : Int) + d.exponent)).toNat = k
    have hdigits : ∀ c ∈ List.replicate k '0' ++ ds, c.isDigit = true := by
      intro c hc
      rw [List.mem_append, List.mem_replicate] at hc
      obtain ⟨-, rfl⟩ | hc := hc
      · rfl
      · exact hleading.digits c hc
    have hsome : List.replicate k '0' ++ ds ≠ [] := by
      simp [hleading.some]
    have hstop : NoDigit ('.' :: (List.replicate k '0' ++ ds ++ rest)) := by
      rintro c ⟨⟩
      rfl
    have hnumber := scanNumber_append leading_zero hstop negative
    rw [scanFraction_point hdigits hsome hrest.noDigit, scanPower_stop hrest] at hnumber
    refine hnumber.trans ?_
    have hnothing : Nat.ofDigitChars 10 ['0'] 0 = 0 := rfl
    simp only [Nat.ofDigitChars_append, Nat.ofDigitChars_replicate_zero, hnothing, Nat.mul_zero,
      hvalue, List.length_append, List.length_replicate]
    congr 4
    omega

theorem scanNumber_scientific :
    scanNumber negative (d.scientific ++ rest) =
      some (⟨negative, d.digits, d.exponent, false⟩, rest) := by
  have hleading := leading_digits d.digits
  rw [Decimal.scientific, digitText_eq]
  generalize hds : Nat.toDigits 10 d.digits = ds at hleading
  have hvalue : Nat.ofDigitChars 10 ds 0 = d.digits := by
    rw [← hds, Nat.ofDigitChars_ten_toDigits]
  obtain ⟨c, cs, rfl⟩ := List.exists_cons_of_ne_nil hleading.some
  have hfirst : Leading [c] := by
    refine ⟨fun b hb => hleading.digits b (by simp_all), by simp, ?_⟩
    intro hzero
    simpa using hzero
  have hpower : NoDigit ('e' :: ((toString (d.exponent + (c :: cs).length - 1)).toList ++ rest)) := by
    rintro b ⟨⟩
    rfl
  cases cs with
  | nil =>
    have hnumber := scanNumber_append hfirst hpower negative
    rw [hvalue] at hnumber
    refine hnumber.trans ?_
    exact (scanPower_int hrest.noDigit _ _).trans (by simp)
  | cons b bs =>
    have hmore : ∀ a ∈ b :: bs, a.isDigit = true := fun a ha =>
      hleading.digits a (List.mem_cons_of_mem c ha)
    have hstop : NoDigit ('.' :: (b :: bs ++
        'e' :: ((toString (d.exponent + (c :: b :: bs).length - 1)).toList ++ rest))) := by
      rintro a ⟨⟩
      rfl
    have hnumber := scanNumber_append hfirst hstop negative
    rw [scanFraction_point hmore (by simp) hpower, scanPower_int hrest.noDigit] at hnumber
    have hjoined := Nat.ofDigitChars_append (b := 10) (l := [c]) (m := b :: bs) 0
    rw [List.singleton_append, hvalue] at hjoined
    rw [← hjoined] at hnumber
    have hexponent : -((b :: bs).length : Int) + (d.exponent + (c :: b :: bs).length - 1) =
        d.exponent := by
      simp only [List.length_cons]
      omega
    rw [hexponent] at hnumber
    simpa using hnumber

end Notation

end TierCache.Json
