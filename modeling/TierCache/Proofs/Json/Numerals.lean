import TierCache.Json.Raw

/-!
Numbers read back. Each part of a number is read up to the first character that does not belong to
it, and the digits before and behind the point count as one numeral.
-/
namespace TierCache.Json

/-- What follows does not go on with a digit. -/
def NoDigit (cs : List Char) : Prop := ∀ c ∈ cs.head?, c.isDigit = false

/-- What follows a value inside a text: its end, a comma or a closing bracket. -/
def Stops (cs : List Char) : Prop := ∀ c ∈ cs.head?, c = ',' ∨ c = ']' ∨ c = '}'

theorem Stops.noDigit {cs : List Char} (h : Stops cs) : NoDigit cs := by
  intro c hc
  obtain rfl | rfl | rfl := h c hc <;> rfl

theorem digit?_of_isDigit {c : Char} (h : c.isDigit = true) :
    Text.digit? c = some (c.toNat - '0'.toNat) := by
  simp only [Char.isDigit, Bool.and_eq_true, decide_eq_true_eq, ge_iff_le, UInt32.le_iff_toNat_le]
    at h
  exact if_pos h

theorem digit?_of_not_isDigit {c : Char} (h : c.isDigit = false) : Text.digit? c = none := by
  have hno : ¬ c.isDigit = true := by simp [h]
  simp only [Char.isDigit, Bool.and_eq_true, decide_eq_true_eq, ge_iff_le, UInt32.le_iff_toNat_le]
    at hno
  exact if_neg hno

/-! ### Digits -/

theorem scanDigits_stop {cs : List Char} (h : NoDigit cs) (acc count : Nat) :
    scanDigits acc count cs = (acc, count, cs) := by
  cases cs with
  | nil => rfl
  | cons c cs => simp only [scanDigits, digit?_of_not_isDigit (h c rfl)]

theorem scanDigits_append {ds rest : List Char} (hds : ∀ c ∈ ds, c.isDigit = true)
    (hrest : NoDigit rest) (acc count : Nat) :
    scanDigits acc count (ds ++ rest) = (Nat.ofDigitChars 10 ds acc, count + ds.length, rest) := by
  induction ds generalizing acc count with
  | nil => exact scanDigits_stop hrest acc count
  | cons d ds ih =>
    have hd := digit?_of_isDigit (hds d List.mem_cons_self)
    have hmore := ih (fun c hc => hds c (List.mem_cons_of_mem d hc))
    simp only [List.cons_append, scanDigits, hd, hmore, Nat.ofDigitChars_cons, List.length_cons,
      Nat.mul_comm acc 10, Nat.add_assoc, Nat.add_comm 1]

theorem isDigit_of_mem_digits {n : Nat} {c : Char} (h : c ∈ Nat.toDigits 10 n) : c.isDigit = true :=
  Nat.isDigit_of_mem_toDigits (by decide) (by decide) h

/-- A positive number is not written with a zero in front. -/
theorem head_digits_ne_zero {n : Nat} (h : 0 < n) : (Nat.toDigits 10 n).head? ≠ some '0' := by
  induction n using Nat.strongRecOn with
  | ind n ih =>
    by_cases hsmall : n < 10
    · rw [Nat.toDigits_of_lt_base hsmall]
      have hdigit : ∀ d < 10, 0 < d → [Nat.digitChar d].head? ≠ some '0' := by decide
      exact hdigit n hsmall h
    · have hmore := ih (n / 10) (by omega) (by omega)
      rw [Nat.toDigits_of_base_le (by decide) (by omega)]
      rwa [List.head?_append, List.head?_eq_some_head Nat.toDigits_ne_nil, Option.some_or,
      ← List.head?_eq_some_head]

/-! ### Parts of a number -/

theorem scanPower_stop {rest : List Char} (h : Stops rest) (n : Numeral) :
    scanPower n rest = some (n, rest) := by
  cases rest with
  | nil => rfl
  | cons c cs => obtain rfl | rfl | rfl := h c rfl <;> rfl

theorem scanFraction_stop {rest : List Char} (h : Stops rest) (n : Numeral) :
    scanFraction n rest = some (n, rest) := by
  cases rest with
  | nil => rfl
  | cons c cs => obtain rfl | rfl | rfl := h c rfl <;> rfl

/-- Digits that a number may begin with: a zero in front stands alone. -/
structure Leading (ds : List Char) : Prop where
  digits : ∀ c ∈ ds, c.isDigit = true
  some : ds ≠ []
  zero : ds.head? = .some '0' → ds = ['0']

theorem leading_digits (n : Nat) : Leading (Nat.toDigits 10 n) where
  digits _ := isDigit_of_mem_digits
  some := Nat.toDigits_ne_nil
  zero h := by
    obtain rfl | hpos := Nat.eq_zero_or_pos n
    · rfl
    · exact absurd h (head_digits_ne_zero hpos)

theorem leading_zero : Leading ['0'] := leading_digits 0

theorem scanNumber_append {ds rest : List Char} (h : Leading ds) (hrest : NoDigit rest)
    (negative : Bool) :
    scanNumber negative (ds ++ rest) =
      scanFraction ⟨negative, Nat.ofDigitChars 10 ds 0, 0, true⟩ rest := by
  have hscan := scanDigits_append h.digits hrest 0 0
  have hcount : 0 + ds.length ≠ 0 := by
    have := List.length_pos_iff.2 h.some
    omega
  unfold scanNumber
  split
  · rename_i c cs heq
    -- the digits are a zero, and the character after it is the first of what follows
    have hzero : ds = ['0'] := by
      apply h.zero
      have hhead := congrArg List.head? heq
      rwa [List.head?_append, List.head?_eq_some_head h.some, Option.some_or,
        ← List.head?_eq_some_head] at hhead
    subst hzero
    obtain rfl : rest = c :: cs := by simpa using heq
    simp only [digit?_of_not_isDigit (hrest c rfl)]
    rfl
  · rw [hscan]
    split
    · rename_i heq
      simp only [Prod.mk.injEq] at heq
      exact absurd heq.2.1 hcount
    · rename_i heq
      simp only [Prod.mk.injEq] at heq
      obtain ⟨hvalue, -, hleft⟩ := heq
      rw [hvalue, hleft]

/-- An integer without a sign. -/
theorem scanNumber_digits {rest : List Char} (h : Stops rest) (negative : Bool) (n : Nat) :
    scanNumber negative (Nat.toDigits 10 n ++ rest) = some (⟨negative, n, 0, true⟩, rest) := by
  rw [scanNumber_append (leading_digits n) h.noDigit, Nat.ofDigitChars_ten_toDigits,
    scanFraction_stop h]

end TierCache.Json
