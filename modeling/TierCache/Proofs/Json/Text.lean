import TierCache.Proofs.Json.Floats
import TierCache.Proofs.Json.Strings
import TierCache.Proofs.Number.Shortest

/-!
The text of a value is read as the value: what follows the text is left, and nothing is broken.
Floats are read as the numerals they are written in.
-/
namespace TierCache.Json

/-- The numeral in the text of a finite float. -/
def floatNumeral (x : Binary64) : Numeral :=
  if x.magnitude = 0 then ⟨x.isNegative, 0, -1, false⟩
  else
    let d := Decimal.shortest x
    if 0 ≤ d.exponent ∧ d.exponent + d.digitText.length ≤ 16 then
      ⟨x.isNegative, d.digits * 10 ^ d.exponent.toNat * 10, -1, false⟩
    else ⟨x.isNegative, d.digits, d.exponent, false⟩

section
variable (numeral : Binary64 → Numeral)

mutual

/-- A value as a tree, given the numerals of its floats. -/
def tree : Json → Raw
  | .null => .null
  | .bool b => .bool b
  | .int n => .num ⟨n < 0, n.natAbs, 0, true⟩
  | .float x => if x.isFinite then .num (numeral x) else .null
  | .str s => .str (some s)
  | .arr items => .arr (treeItems items)
  | .obj members => .obj (treeMembers members)

def treeItems : List Json → List Raw
  | [] => []
  | v :: rest => tree v :: treeItems rest

def treeMembers : List (String × Json) → List (Option String × Raw)
  | [] => []
  | (k, v) :: rest => (some k, tree v) :: treeMembers rest

end

end

/-- What the text of a value is read as. -/
def written (j : Json) : Raw := tree floatNumeral j

/-! ### Numbers -/

theorem isSpace_digit {c : Char} (hc : c.isDigit = true) : isSpace c = false := by
  simp only [isSpace, Bool.or_eq_false_iff, decide_eq_false_iff_not]
  refine ⟨⟨⟨?_, ?_⟩, ?_⟩, ?_⟩ <;> (rintro rfl; exact absurd hc (by decide))

theorem skipSpace_cons {c : Char} (hc : isSpace c = false) (cs : List Char) :
    skipSpace (c :: cs) = c :: cs := by
  simp [skipSpace, hc]

/-- Where a digit stands, a number is read. -/
theorem readValue_digit {fuel : Nat} {cs : List Char} {c : Char} (hc : c.isDigit = true) :
    readValue (fuel + 1) (c :: cs) = match scanNumber false (c :: cs) with
      | some (n, r) => (.num n, some r)
      | none => (.broken, none) := by
  rw [readValue, skipSpace_cons (isSpace_digit hc)]
  split
  all_goals first
    | rfl
    | (rename_i heq; cases heq; exact absurd hc (by decide))

/-- A number after its sign, if it has one. -/
theorem readValue_number {fuel : Nat} {body rest left : List Char} {n : Numeral} {negative : Bool}
    (hdigit : ∃ c ∈ body.head?, c.isDigit = true)
    (hscan : scanNumber negative (body ++ rest) = some (n, left)) :
    readValue (fuel + 1) ((if negative then '-' :: body else body) ++ rest) =
      (.num n, some left) := by
  obtain ⟨c, hc, hdigit⟩ := hdigit
  obtain ⟨cs, rfl⟩ := List.head?_eq_some_iff.1 hc
  cases negative with
  | true =>
    have hspace : skipSpace ('-' :: (c :: cs ++ rest)) = '-' :: (c :: cs ++ rest) := rfl
    simp only [if_true, List.cons_append] at hspace hscan ⊢
    rw [readValue, hspace]
    simp only [hscan]
  | false =>
    simp only [Bool.false_eq_true, if_false, List.cons_append] at hscan ⊢
    rw [readValue_digit hdigit, hscan]

theorem head_digits (n : Nat) : ∃ c ∈ (Nat.toDigits 10 n).head?, c.isDigit = true :=
  ⟨_, List.head?_eq_some_head Nat.toDigits_ne_nil, isDigit_of_mem_digits (List.head_mem _)⟩

theorem readValue_int {fuel : Nat} {rest : List Char} (h : Stops rest) (n : Int) :
    readValue (fuel + 1) ((toString n).toList ++ rest) =
      (.num ⟨n < 0, n.natAbs, 0, true⟩, some rest) := by
  have hscan := scanNumber_digits h (decide (n < 0)) n.natAbs
  rw [toList_int]
  simpa using readValue_number (head_digits _) hscan

theorem head_positional (d : Decimal) : ∃ c ∈ d.positional.head?, c.isDigit = true := by
  obtain ⟨c, hc, hdigit⟩ := head_digits d.digits
  obtain ⟨cs, hds⟩ := List.head?_eq_some_iff.1 hc
  rw [Decimal.positional, digitText_eq, hds]
  dsimp only
  split
  · exact ⟨c, rfl, hdigit⟩
  · split
    · rename_i hpoint
      obtain ⟨k, hk⟩ := Nat.exists_eq_succ_of_ne_zero
        (show (((c :: cs).length : Int) + d.exponent).toNat ≠ 0 by omega)
      rw [hk]
      exact ⟨c, rfl, hdigit⟩
    · exact ⟨'0', rfl, rfl⟩

theorem head_scientific (d : Decimal) : ∃ c ∈ d.scientific.head?, c.isDigit = true := by
  obtain ⟨c, hc, hdigit⟩ := head_digits d.digits
  obtain ⟨cs, hds⟩ := List.head?_eq_some_iff.1 hc
  rw [Decimal.scientific, digitText_eq, hds]
  exact ⟨c, rfl, hdigit⟩

/-- A finite float is written as a sign, if it is negative, and digits that are read as its
numeral. -/
theorem floatChars_eq {x : Binary64} (hfinite : x.isFinite = true) :
    ∃ body : List Char, floatChars x = (if x.isNegative then '-' :: body else body) ∧
      (∃ c ∈ body.head?, c.isDigit = true) ∧
      ∀ rest, Stops rest →
        scanNumber x.isNegative (body ++ rest) = some (floatNumeral x, rest) := by
  simp only [floatChars, floatNumeral, hfinite, Bool.not_true, Bool.false_eq_true, if_false]
  by_cases hzero : x.magnitude = 0
  · simp only [hzero, if_true]
    refine ⟨_, rfl, ⟨'0', rfl, rfl⟩, fun rest h => ?_⟩
    have hstop : NoDigit ('.' :: (['0'] ++ rest)) := by
      rintro c ⟨⟩
      rfl
    have hnumber := scanNumber_append leading_zero hstop x.isNegative
    rw [scanFraction_point leading_zero.digits leading_zero.some h.noDigit, scanPower_stop h]
      at hnumber
    exact hnumber
  · obtain ⟨-, hpos, -⟩ := Decimal.shortest_spec hzero hfinite
    simp only [hzero, if_false]
    generalize Decimal.shortest x = d at hpos
    refine ⟨_, rfl, ?_⟩
    by_cases hwhole : 0 ≤ d.exponent
    · by_cases hshort : d.exponent + d.digitText.length ≤ 16
      · have hlow : (-5 : Int) < d.exponent + d.digitText.length := by omega
        obtain ⟨c, hc, hdigit⟩ := head_positional d
        simp only [hwhole, hshort, hlow, and_self, if_true]
        refine ⟨⟨c, ?_, hdigit⟩, fun rest h => scanNumber_whole h _ hpos hwhole⟩
        rw [List.head?_append, hc]
        rfl
      · simp only [hshort, and_false, if_false]
        exact ⟨head_scientific d, fun rest h => scanNumber_scientific h _⟩
    · simp only [hwhole, false_and, if_false]
      split
      · exact ⟨head_positional d, fun rest h => scanNumber_positional h _ (by omega)⟩
      · exact ⟨head_scientific d, fun rest h => scanNumber_scientific h _⟩

/-! ### Values -/

/-- The first character of a value is neither blank nor a closing bracket. -/
def Opens (cs : List Char) : Prop := ∃ c ∈ cs.head?, isSpace c = false ∧ c ≠ ']'

theorem opens_number {body : List Char} (h : ∃ c ∈ body.head?, c.isDigit = true) (negative : Bool) :
    Opens (if negative then '-' :: body else body) := by
  obtain ⟨c, hc, hdigit⟩ := h
  cases negative with
  | true => exact ⟨'-', rfl, rfl, by decide⟩
  | false => exact ⟨c, hc, isSpace_digit hdigit, by rintro rfl; exact absurd hdigit (by decide)⟩

theorem opens_chars (j : Json) : Opens (chars j) := by
  cases j with
  | null => exact ⟨'n', rfl, rfl, by decide⟩
  | bool b => cases b <;> exact ⟨_, rfl, rfl, by decide⟩
  | int n =>
    have hopens := opens_number (head_digits n.natAbs) (decide (n < 0))
    rw [chars, toList_int]
    simpa using hopens
  | float x =>
    by_cases hfinite : x.isFinite = true
    · obtain ⟨body, hbody, hdigit, -⟩ := floatChars_eq hfinite
      rw [chars, hbody]
      exact opens_number hdigit _
    · rw [chars, floatChars, if_pos (by simpa using hfinite)]
      exact ⟨'n', rfl, rfl, by decide⟩
  | str s => exact ⟨'"', rfl, rfl, by decide⟩
  | arr items => exact ⟨'[', rfl, rfl, by decide⟩
  | obj members => exact ⟨'{', rfl, rfl, by decide⟩

/-- A quoted string is read up to its closing quote. -/
theorem scanString_quoted (s : String) (rest : List Char) :
    ∃ body us, quoted s ++ rest = '"' :: body ∧ scanString body = some (us, rest) ∧
      (joinUnits us).map String.ofList = some s := by
  obtain ⟨us, hscan, hjoin⟩ := scanString_escaped s.toList rest
  refine ⟨s.toList.flatMap escape ++ '"' :: rest, us, by simp [quoted], hscan, ?_⟩
  rw [hjoin, Option.map_some, String.ofList_toList]

theorem readValue_quoted {fuel : Nat} (s : String) (rest : List Char) :
    readValue (fuel + 1) (quoted s ++ rest) = (.str (some s), some rest) := by
  obtain ⟨body, us, hquoted, hscan, hjoin⟩ := scanString_quoted s rest
  rw [hquoted, readValue, skipSpace_cons rfl]
  simp only [hscan, hjoin]

theorem readValue_arr {fuel : Nat} {cs : List Char} (h : Opens cs) {items : List Raw}
    {left : Option (List Char)} (hitems : readItems fuel cs = (items, left)) :
    readValue (fuel + 1) ('[' :: cs) = (.arr items, left) := by
  obtain ⟨c, hc, hspace, hopen⟩ := h
  obtain ⟨cs, rfl⟩ := List.head?_eq_some_iff.1 hc
  rw [readValue, skipSpace_cons rfl]
  simp only [skipSpace_cons hspace]
  split
  · rename_i heq
    exact absurd (List.cons.inj heq).1 hopen
  · rw [hitems]

theorem readValue_obj {fuel : Nat} {cs : List Char} (hquote : ∃ body, cs = '"' :: body)
    {members : List (Option String × Raw)} {left : Option (List Char)}
    (hmembers : readMembers fuel cs = (members, left)) :
    readValue (fuel + 1) ('{' :: cs) = (.obj members, left) := by
  obtain ⟨cs, rfl⟩ := hquote
  have hinner : skipSpace ('"' :: cs) = '"' :: cs := skipSpace_cons rfl cs
  rw [readValue, skipSpace_cons rfl]
  simp only [hinner]
  split
  · rename_i heq
    exact absurd (List.cons.inj heq).1 (by decide)
  · rw [hmembers]

/-! What comes after an item or a member is a comma or the closing bracket. -/

theorem readItems_last {fuel : Nat} {text rest : List Char} {v : Raw}
    (hvalue : readValue fuel text = (v, some (']' :: rest))) :
    readItems (fuel + 1) text = ([v], some rest) := by
  rw [readItems, hvalue]
  rfl

theorem readItems_next {fuel : Nat} {text rest : List Char} {v : Raw} {vs : List Raw}
    {left : Option (List Char)} (hvalue : readValue fuel text = (v, some (',' :: rest)))
    (hmore : readItems fuel rest = (vs, left)) :
    readItems (fuel + 1) text = (v :: vs, left) := by
  have hcomma : skipSpace (',' :: rest) = ',' :: rest := skipSpace_cons rfl rest
  rw [readItems, hvalue]
  simp only [hcomma, hmore]

theorem readMembers_last {fuel : Nat} (k : String) {text rest : List Char} {v : Raw}
    (hvalue : readValue fuel text = (v, some ('}' :: rest))) :
    readMembers (fuel + 1) (quoted k ++ ':' :: text) = ([(some k, v)], some rest) := by
  obtain ⟨body, us, hquoted, hscan, hjoin⟩ := scanString_quoted k (':' :: text)
  have hcolon : skipSpace (':' :: text) = ':' :: text := skipSpace_cons rfl text
  have hclose : skipSpace ('}' :: rest) = '}' :: rest := skipSpace_cons rfl rest
  rw [hquoted, readMembers, skipSpace_cons rfl]
  simp only [hscan, hjoin, hcolon, hvalue, hclose]

theorem readMembers_next {fuel : Nat} (k : String) {text rest : List Char} {v : Raw}
    {ms : List (Option String × Raw)} {left : Option (List Char)}
    (hvalue : readValue fuel text = (v, some (',' :: rest)))
    (hmore : readMembers fuel rest = (ms, left)) :
    readMembers (fuel + 1) (quoted k ++ ':' :: text) = ((some k, v) :: ms, left) := by
  obtain ⟨body, us, hquoted, hscan, hjoin⟩ := scanString_quoted k (':' :: text)
  have hcolon : skipSpace (':' :: text) = ':' :: text := skipSpace_cons rfl text
  have hcomma : skipSpace (',' :: rest) = ',' :: rest := skipSpace_cons rfl rest
  rw [hquoted, readMembers, skipSpace_cons rfl]
  simp only [hscan, hjoin, hcolon, hvalue, hcomma, hmore]

theorem stops_close (c : Char) (rest : List Char) (h : c = ',' ∨ c = ']' ∨ c = '}') :
    Stops (c :: rest) := by
  rintro b ⟨⟩
  exact h

/-- Items after the first one are written as items after a comma. -/
theorem itemChars_false (items : List Json) (hsome : items ≠ []) :
    itemChars false items = ',' :: itemChars true items := by
  cases items with
  | nil => exact absurd rfl hsome
  | cons v vs => rw [itemChars, itemChars]

theorem memberChars_false (members : List (String × Json)) (hsome : members ≠ []) :
    memberChars false members = ',' :: memberChars true members := by
  cases members with
  | nil => exact absurd rfl hsome
  | cons m ms => rw [memberChars, memberChars]

theorem opens_items (items : List Json) (hsome : items ≠ [])
    (rest : List Char) : Opens (itemChars true items ++ rest) := by
  cases items with
  | nil => exact absurd rfl hsome
  | cons v vs =>
    obtain ⟨c, hc, hfirst⟩ := opens_chars v
    obtain ⟨cs, hcs⟩ := List.head?_eq_some_iff.1 hc
    exact ⟨c, by rw [itemChars, hcs]; rfl, hfirst⟩

theorem quote_members (members : List (String × Json)) (hsome : members ≠ []) (rest : List Char) :
    ∃ cs, memberChars true members ++ rest = '"' :: cs := by
  cases members with
  | nil => exact absurd rfl hsome
  | cons m ms => exact ⟨_, rfl⟩

mutual

/-- The text of a value is read as the value. -/
theorem readValue_chars (j : Json) {fuel : Nat} {rest : List Char}
    (hstop : Stops rest) (hfuel : (chars j).length ≤ fuel) :
    readValue fuel (chars j ++ rest) = (written j, some rest) := by
  obtain ⟨fuel, rfl⟩ : ∃ k, fuel = k + 1 := by
    obtain ⟨c, hc, -⟩ := opens_chars j
    obtain ⟨cs, hcs⟩ := List.head?_eq_some_iff.1 hc
    rw [hcs] at hfuel
    exact Nat.exists_eq_add_of_le' (Nat.le_trans (by simp) hfuel)
  match j with
  | .null => rfl
  | .bool true => rfl
  | .bool false => rfl
  | .int n => exact readValue_int hstop n
  | .float x =>
    by_cases hfinite : x.isFinite = true
    · obtain ⟨body, hbody, hdigit, hscan⟩ := floatChars_eq hfinite
      rw [chars, hbody, written, tree, if_pos hfinite]
      exact readValue_number hdigit (hscan rest hstop)
    · rw [chars, floatChars, if_pos (by simpa using hfinite), written, tree, if_neg hfinite]
      rfl
  | .str s => exact readValue_quoted s rest
  | .arr items =>
    by_cases hsome : items = []
    · subst hsome
      rfl
    · have hitems : readItems fuel (itemChars true items ++ rest) = _ :=
        readItems_chars items hsome (Nat.le_of_succ_le_succ hfuel)
      exact readValue_arr (opens_items items hsome rest) hitems
  | .obj members =>
    by_cases hsome : members = []
    · subst hsome
      rfl
    · have hmembers : readMembers fuel (memberChars true members ++ rest) = _ :=
        readMembers_chars members hsome (Nat.le_of_succ_le_succ hfuel)
      exact readValue_obj (quote_members members hsome rest) hmembers

theorem readItems_chars (items : List Json) (hsome : items ≠ [])
    {fuel : Nat} {rest : List Char} (hfuel : (itemChars true items).length ≤ fuel) :
    readItems fuel (itemChars true items ++ rest) = (treeItems floatNumeral items, some rest) := by
  match items, hsome with
  | v :: vs, _ =>
    rw [itemChars, List.length_append] at hfuel
    rw [itemChars, List.append_assoc]
    by_cases hlast : vs = []
    · subst hlast
      obtain ⟨fuel, rfl⟩ := Nat.exists_eq_add_of_le' (Nat.le_trans (Nat.le_add_left 1 _) hfuel)
      exact readItems_last (readValue_chars v (stops_close _ _ (by simp))
        (Nat.le_of_succ_le_succ hfuel))
    · rw [itemChars_false vs hlast, List.length_cons] at hfuel
      obtain ⟨fuel, rfl⟩ := Nat.exists_eq_add_of_le' (Nat.le_trans (show 1 ≤ _ by omega) hfuel)
      rw [itemChars_false vs hlast, List.cons_append]
      exact readItems_next
        (readValue_chars v (stops_close _ _ (by simp)) (by omega))
        (readItems_chars vs hlast (by omega))

theorem readMembers_chars (members : List (String × Json)) (hsome : members ≠ [])
    {fuel : Nat} {rest : List Char}
    (hfuel : (memberChars true members).length ≤ fuel) :
    readMembers fuel (memberChars true members ++ rest) =
      (treeMembers floatNumeral members, some rest) := by
  match members, hsome with
  | (k, v) :: ms, _ =>
    rw [memberChars, List.length_append, List.length_cons, List.length_append] at hfuel
    rw [memberChars, List.append_assoc, List.cons_append, List.append_assoc]
    obtain ⟨fuel, rfl⟩ := Nat.exists_eq_add_of_le' (Nat.le_trans (show 1 ≤ _ by omega) hfuel)
    by_cases hlast : ms = []
    · subst hlast
      rw [memberChars] at hfuel ⊢
      exact readMembers_last k
        (readValue_chars v (stops_close _ _ (by simp)) (by omega))
    · rw [memberChars_false ms hlast, List.length_cons] at hfuel
      rw [memberChars_false ms hlast, List.cons_append]
      exact readMembers_next k
        (readValue_chars v (stops_close _ _ (by simp)) (by omega))
        (readMembers_chars ms hlast (by omega))

end

/-- Reading the text of a value gives the value. -/
theorem ofChars_chars (j : Json) : Raw.ofChars (chars j) = written j := by
  have hread : readValue (2 * (chars j).length + 2) (chars j ++ []) = _ :=
    readValue_chars j nofun (by omega)
  rw [List.append_nil] at hread
  simp only [Raw.ofChars, Raw.first, hread]
  rfl

theorem ofText_render (j : Json) : Raw.ofText j.render = written j := by
  rw [Raw.ofText, render, String.toList_ofList, ofChars_chars]

end TierCache.Json
