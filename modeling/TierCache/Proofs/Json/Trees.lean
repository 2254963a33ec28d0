import TierCache.Proofs.Json.Text
import TierCache.Proofs.Number.Reading

/-!
The numerals of finite floats stand for them, in the text of a value as in a value that is read once
more.
-/
namespace TierCache.Json

theorem ofNumeral?_nat {n : Nat} (h : n ≤ Text.maxUnsigned) :
    ofNumeral? ⟨decide ((n : Int) < 0), (n : Int).natAbs, 0, true⟩ = some (.int n) := by
  have hneg : ¬ (n : Int) < 0 := by omega
  simp [ofNumeral?, hneg, h]

/-- The numerals stand for the floats. -/
def Faithful (numeral : Binary64 → Numeral) : Prop :=
  ∀ x : Binary64, x.isFinite = true → ofNumeral? (numeral x) = some (.float x)

theorem ofNumeral?_of_decimal {x : Binary64} (hfinite : x.isFinite = true) {c : Nat} {k : Int}
    (h : Binary64.ofDecimal x.isNegative c k = x) :
    ofNumeral? ⟨x.isNegative, c, k, false⟩ = some (.float x) := by
  simp only [ofNumeral?, h, Bool.false_eq_true, false_and, if_false, hfinite, if_true]

theorem ofNumeral?_zero {x : Binary64} (hfinite : x.isFinite = true) (hzero : x.magnitude = 0) :
    ofNumeral? ⟨x.isNegative, 0, -1, false⟩ = some (.float x) := by
  apply ofNumeral?_of_decimal hfinite
  rw [Binary64.ofDecimal, if_pos rfl, ← hzero, Binary64.ofMagnitude_self]

section
variable {x : Binary64} (hnonzero : x.magnitude ≠ 0) (hfinite : x.isFinite = true)
include hnonzero hfinite

theorem ofNumeral?_shortest :
    ofNumeral? ⟨x.isNegative, (Decimal.shortest x).digits, (Decimal.shortest x).exponent, false⟩ =
      some (.float x) := by
  obtain ⟨haround, -, hdigits⟩ := Decimal.shortest_spec hnonzero hfinite
  exact ofNumeral?_of_decimal hfinite
    (Binary64.ofDecimal_eq hfinite hnonzero (by omega) haround)

/-- A whole number is written out with a zero behind the point. -/
theorem ofNumeral?_whole (hwhole : 0 ≤ (Decimal.shortest x).exponent)
    (hshort : (Decimal.shortest x).exponent + (Decimal.shortest x).digitText.length ≤ 16) :
    ofNumeral? ⟨x.isNegative,
      (Decimal.shortest x).digits * 10 ^ (Decimal.shortest x).exponent.toNat * 10, -1, false⟩ =
        some (.float x) := by
  obtain ⟨haround, -, -⟩ := Decimal.shortest_spec hnonzero hfinite
  generalize Decimal.shortest x = d at *
  apply ofNumeral?_of_decimal hfinite
  apply Binary64.ofDecimal_eq hfinite hnonzero
  · have hdigits : d.digits < 10 ^ d.digitText.length := by
      rw [digitText_eq]
      exact (Nat.length_toDigits_le_iff (by decide) Nat.length_toDigits_pos).1 le_rfl
    calc d.digits * 10 ^ d.exponent.toNat * 10
        < 10 ^ d.digitText.length * 10 ^ d.exponent.toNat * 10 := by gcongr
      _ = 10 ^ (d.digitText.length + d.exponent.toNat + 1) := by rw [pow_succ, pow_add]
      _ ≤ 10 ^ 18 := Nat.pow_le_pow_right (by decide) (by omega)
  · have hvalue : ((d.digits * 10 ^ d.exponent.toNat * 10 : Nat) : ℚ) * 10 ^ (-1 : Int) = d.toRat := by
      rw [Decimal.toRat, (Binary64.zpow_cases 10 d.exponent).1 hwhole, zpow_neg_one]
      push_cast
      rw [mul_assoc, mul_inv_cancel₀ (by norm_num), mul_one]
    rwa [hvalue]

end

theorem faithful_floatNumeral : Faithful floatNumeral := by
  intro x hfinite
  unfold floatNumeral
  split
  · rename_i hzero
    exact ofNumeral?_zero hfinite hzero
  · rename_i hnonzero
    dsimp only
    split
    · rename_i hwhole
      exact ofNumeral?_whole hnonzero hfinite hwhole.1 hwhole.2
    · exact ofNumeral?_shortest hnonzero hfinite

/-- The numeral of a float that is read once more. -/
def plainNumeral (x : Binary64) : Numeral :=
  if x.magnitude = 0 then ⟨x.isNegative, 0, -1, false⟩
  else ⟨x.isNegative, (Decimal.shortest x).digits, (Decimal.shortest x).exponent, false⟩

theorem faithful_plainNumeral : Faithful plainNumeral := by
  intro x hfinite
  unfold plainNumeral
  split
  · rename_i hzero
    exact ofNumeral?_zero hfinite hzero
  · rename_i hnonzero
    exact ofNumeral?_shortest hnonzero hfinite

mutual

theorem raw_eq_tree (j : Json) : raw j = tree plainNumeral j := by
  match j with
  | .float x =>
    rw [raw, tree, plainNumeral]
    cases x.isFinite with
    | false => rfl
    | true =>
      simp only [Bool.not_true, Bool.false_eq_true, if_false, if_true]
      split <;> rfl
  | .arr items => rw [raw, tree, rawItems_eq_tree items]
  | .obj members => rw [raw, tree, rawMembers_eq_tree members]
  | .null | .bool _ | .int _ | .str _ => rfl

theorem rawItems_eq_tree (items : List Json) : rawItems items = treeItems plainNumeral items := by
  match items with
  | [] => rfl
  | v :: rest => rw [rawItems, treeItems, raw_eq_tree v, rawItems_eq_tree rest]

theorem rawMembers_eq_tree (members : List (String × Json)) :
    rawMembers members = treeMembers plainNumeral members := by
  match members with
  | [] => rfl
  | (k, v) :: rest => rw [rawMembers, treeMembers, raw_eq_tree v, rawMembers_eq_tree rest]

end

end TierCache.Json
