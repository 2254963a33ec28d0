import TierCache.Proofs.Json.Floats

/-! The text of a value holds no control character, so it stays on one line. -/
namespace TierCache.Json

/-- No character is a control character. -/
def Plain (cs : List Char) : Prop := ∀ c ∈ cs, 0x20 ≤ c.toNat

namespace Plain

@[simp] theorem nil : Plain [] := nofun

@[simp] theorem cons_iff {c : Char} {cs : List Char} :
    Plain (c :: cs) ↔ 0x20 ≤ c.toNat ∧ Plain cs := List.forall_mem_cons

@[simp] theorem append_iff {cs ds : List Char} : Plain (cs ++ ds) ↔ Plain cs ∧ Plain ds :=
  List.forall_mem_append

theorem of_sublist {cs ds : List Char} (h : Plain ds) (hsub : cs.Sublist ds) : Plain cs :=
  fun c hc => h c (hsub.subset hc)

theorem not_mem {cs : List Char} (h : Plain cs) {c : Char} (hc : c.toNat < 0x20) : c ∉ cs :=
  fun hmem => absurd (h c hmem) (by omega)

end Plain

theorem plain_digits (n : Nat) : Plain (Nat.toDigits 10 n) := by
  intro c hc
  have hdigit := isDigit_of_mem_digits hc
  simp only [Char.isDigit, Bool.and_eq_true, decide_eq_true_eq, ge_iff_le, UInt32.le_iff_toNat_le]
    at hdigit
  exact Nat.le_trans (by decide) hdigit.1

theorem plain_zeros (n : Nat) : Plain (List.replicate n '0') := by
  intro c hc
  rw [List.eq_of_mem_replicate hc]
  decide

theorem plain_int (n : Int) : Plain (toString n).toList := by
  rw [toList_int]
  split
  · exact Plain.cons_iff.2 ⟨by decide, plain_digits _⟩
  · exact plain_digits _

theorem plain_positional (d : Decimal) : Plain d.positional := by
  have hdigits := plain_digits d.digits
  rw [Decimal.positional, digitText_eq]
  dsimp only
  split
  · simp [hdigits, plain_zeros]
  · split
    · simp [hdigits.of_sublist (List.take_sublist _ _), hdigits.of_sublist (List.drop_sublist _ _)]
    · simp [hdigits, plain_zeros]

theorem plain_scientific (d : Decimal) : Plain d.scientific := by
  have hdigits := plain_digits d.digits
  have hpower (n : Int) : Plain ('e' :: (toString n).toList) :=
    Plain.cons_iff.2 ⟨by decide, plain_int n⟩
  have hfraction : Plain (if d.digitText.length = 1 then [] else '.' :: d.digitText.drop 1) := by
    rw [digitText_eq]
    split
    · exact .nil
    · exact Plain.cons_iff.2 ⟨by decide, hdigits.of_sublist (List.drop_sublist _ _)⟩
  rw [Decimal.scientific]
  refine Plain.append_iff.2 ⟨Plain.append_iff.2 ⟨?_, hfraction⟩, hpower _⟩
  rw [digitText_eq]
  exact hdigits.of_sublist (List.take_sublist _ _)

theorem plain_floatChars (x : Binary64) : Plain (floatChars x) := by
  have hsigned {body : List Char} (h : Plain body) :
      Plain (if x.isNegative then '-' :: body else body) := by
    split
    · exact Plain.cons_iff.2 ⟨by decide, h⟩
    · exact h
  rw [floatChars]
  split
  · simp
  · apply hsigned
    split
    · simp
    · dsimp only
      split
      · split
        · simp [plain_positional]
        · exact plain_positional _
      · exact plain_scientific _

theorem plain_escape (c : Char) : Plain (escape c) := by
  have hhex : ∀ n < 0x20, 0x20 ≤ (hexDigit (n / 16)).toNat ∧ 0x20 ≤ (hexDigit (n % 16)).toNat := by
    decide
  unfold escape
  split
  · simp
  · split
    · simp
    · split
      · rename_i hsmall
        split
        case h_6 => simpa using hhex c.toNat hsmall
        all_goals simp
      · rename_i hlarge
        exact Plain.cons_iff.2 ⟨Nat.le_of_not_lt hlarge, .nil⟩

theorem plain_quoted (s : String) : Plain (quoted s) := by
  have hescaped : Plain (s.toList.flatMap escape) := by
    intro c hc
    obtain ⟨d, -, hd⟩ := List.mem_flatMap.1 hc
    exact plain_escape d c hd
  simp [quoted, hescaped]

mutual

theorem plain_chars (j : Json) : Plain (chars j) := by
  match j with
  | .null | .bool true | .bool false => simp [chars]
  | .int n => exact plain_int n
  | .float x => exact plain_floatChars x
  | .str s => exact plain_quoted s
  | .arr items => exact Plain.cons_iff.2 ⟨by decide, plain_itemChars true items⟩
  | .obj members => exact Plain.cons_iff.2 ⟨by decide, plain_memberChars true members⟩

theorem plain_itemChars (first : Bool) (items : List Json) : Plain (itemChars first items) := by
  match first, items with
  | _, [] => simp [itemChars]
  | true, v :: rest => simp [itemChars, plain_chars v, plain_itemChars false rest]
  | false, v :: rest => simp [itemChars, plain_chars v, plain_itemChars false rest]

theorem plain_memberChars (first : Bool) (members : List (String × Json)) :
    Plain (memberChars first members) := by
  match first, members with
  | _, [] => simp [memberChars]
  | true, (k, v) :: rest =>
    simp [memberChars, plain_quoted k, plain_chars v, plain_memberChars false rest]
  | false, (k, v) :: rest =>
    simp [memberChars, plain_quoted k, plain_chars v, plain_memberChars false rest]

end

end TierCache.Json
