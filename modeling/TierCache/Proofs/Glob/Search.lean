import TierCache.Regex

/-!
A library that searches as it is documented: it reads an expression back from its text, and looks for a
match at every place of the text.
-/
namespace TierCache.Regex

/-- A text is cut in two at one of its places. -/
theorem exists_split {P : List Char → List Char → Prop} {text : List Char} :
    (∃ k ≤ text.length, P (text.take k) (text.drop k)) ↔
      ∃ first others, text = first ++ others ∧ P first others := by
  constructor
  · rintro ⟨k, -, hp⟩
    exact ⟨_, _, (List.take_append_drop k text).symm, hp⟩
  · rintro ⟨first, others, rfl, hp⟩
    exact ⟨first.length, by simp, by simpa using hp⟩

local instance decidableSplit {P : List Char → List Char → Prop}
    [∀ first others, Decidable (P first others)] (text : List Char) :
    Decidable (∃ first others, text = first ++ others ∧ P first others) :=
  decidable_of_iff _ exists_split

instance (dotAll : Bool) (before taken after : List Char) :
    (piece : Piece) → Decidable (piece.Takes dotAll before taken after)
  | .literal text => inferInstanceAs (Decidable (taken = text.toList))
  | .dot => inferInstanceAs (Decidable (_ ∧ _))
  | .dots => inferInstanceAs (Decidable (_ ∨ _))
  | .start => inferInstanceAs (Decidable (_ ∧ _))
  | .stop => inferInstanceAs (Decidable (_ ∧ _))

instance Take.decidable (dotAll : Bool) : (pieces : List Piece) → (before taken after : List Char) →
    Decidable (Take dotAll pieces before taken after)
  | [], _, taken, _ => inferInstanceAs (Decidable (taken = []))
  | piece :: rest, before, taken, after =>
    have _ := Take.decidable dotAll rest
    inferInstanceAs (Decidable (∃ first others, taken = first ++ others ∧
      piece.Takes dotAll before first (others ++ after) ∧ Take dotAll rest (before ++ first) others after))

theorem Expression.foundIn_iff {x : Expression} {text : List Char} :
    (∃ before rest, text = before ++ rest ∧
      ∃ taken after, rest = taken ++ after ∧ Take x.dotAll x.pieces before taken after) ↔
      x.FoundIn text := by
  constructor
  · rintro ⟨before, _, rfl, taken, after, rfl, take⟩
    exact ⟨before, taken, after, by simp, take⟩
  · rintro ⟨before, taken, after, rfl, take⟩
    exact ⟨before, taken ++ after, by simp, taken, after, rfl, take⟩

instance (x : Expression) (text : List Char) : Decidable (x.FoundIn text) :=
  decidable_of_iff _ Expression.foundIn_iff

/-- The characters that mean something else in an expression. -/
def special (c : Char) : Bool := c ∈ "\\.+*?()|[]\x7b\x7d^$#&-~".toList

def escapeChar (c : Char) : List Char := if special c then ['\\', c] else [c]

def escape (text : String) : String := .ofList (text.toList.flatMap escapeChar)

/-- The pieces that are written in a text, literals by single characters. -/
def parsePieces : List Char → Option (List Piece)
  | [] => some []
  | '\\' :: c :: rest => if special c then (parsePieces rest).map (.literal (.singleton c) :: ·) else none
  | '.' :: '*' :: rest => (parsePieces rest).map (.dots :: ·)
  | '.' :: rest => (parsePieces rest).map (.dot :: ·)
  | '^' :: rest => (parsePieces rest).map (.start :: ·)
  | '$' :: rest => (parsePieces rest).map (.stop :: ·)
  | c :: rest => if special c then none else (parsePieces rest).map (.literal (.singleton c) :: ·)

def parse (text : String) : Option Expression :=
  match text.toList with
  | '(' :: '?' :: 's' :: ')' :: rest => (parsePieces rest).map (⟨true, ·⟩)
  | rest => (parsePieces rest).map (⟨false, ·⟩)

def search : Library Expression where
  compile := parse
  isMatch x text := decide (x.FoundIn text.toList)
  escape := escape

/-- A piece as it is read back. -/
def Piece.singles : Piece → List Piece
  | literal text => text.toList.map (.literal <| .singleton ·)
  | piece => [piece]

theorem take_append {dotAll : Bool} {front back : List Piece} : ∀ {before taken after},
    Take dotAll (front ++ back) before taken after ↔
      ∃ first others, taken = first ++ others ∧ Take dotAll front before first (others ++ after) ∧
        Take dotAll back (before ++ first) others after := by
  induction front with
  | nil =>
    intro before taken after
    simp only [List.nil_append, Take]
    constructor
    · exact fun take => ⟨[], taken, rfl, rfl, by simpa using take⟩
    · rintro ⟨_, others, rfl, rfl, take⟩
      simpa using take
  | cons piece front ih =>
    intro before taken after
    simp only [List.cons_append, Take, ih]
    constructor
    · rintro ⟨a, _, rfl, ha, b, c, rfl, hb, hc⟩
      exact ⟨a ++ b, c, by simp, ⟨a, b, rfl, by simpa using ha, hb⟩, by simpa using hc⟩
    · rintro ⟨_, c, rfl, ⟨a, b, rfl, ha, hb⟩, hc⟩
      exact ⟨a, b ++ c, by simp, by simpa using ha, b, c, rfl, hb, by simpa using hc⟩

theorem take_singles (dotAll : Bool) (text : List Char) : ∀ before taken after,
    Take dotAll (text.map (.literal <| .singleton ·)) before taken after ↔ taken = text := by
  induction text with
  | nil => simp [Take]
  | cons c text ih => simp [Take, Piece.Takes, ih]

/-- What is read back takes the same characters. -/
theorem take_flatMap_singles (dotAll : Bool) (pieces : List Piece) : ∀ before taken after,
    Take dotAll (pieces.flatMap Piece.singles) before taken after ↔
      Take dotAll pieces before taken after := by
  induction pieces with
  | nil => simp
  | cons piece rest ih =>
    intro before taken after
    cases piece with
    | literal text =>
      simp only [List.flatMap_cons, take_append, Piece.singles, take_singles, ih, Take, Piece.Takes]
    | _ => simp only [List.flatMap_cons, Piece.singles, List.singleton_append, Take, ih]

/-- The text of some pieces, by its characters. -/
def chars (pieces : List Piece) : List Char := pieces.flatMap fun piece => (piece.text escape).toList

/-- No text of pieces begins with a star or a bracket: stars stand behind dots, and those of literals are
escaped. -/
theorem head_chars {c : Char} (hc : c = '*' ∨ c = '(') (pieces : List Piece) (rest : List Char) :
    chars pieces ≠ c :: rest := by
  induction pieces with
  | nil => simp [chars]
  | cons piece pieces ih =>
    cases piece with
    | literal text =>
      cases h : text.toList with
      | nil => simpa [chars, Piece.text, escape, h] using ih
      | cons first others =>
        by_cases hs : special first
        · rcases hc with rfl | rfl <;> simp [chars, Piece.text, escape, h, escapeChar, hs]
        · have : first ≠ c := by
            rintro rfl
            rcases hc with rfl | rfl <;> exact hs (by decide)
          simp [chars, Piece.text, escape, h, escapeChar, hs, this]
    | _ => rcases hc with rfl | rfl <;> simp [chars, Piece.text]

theorem parsePieces_plain {c : Char} (hc : ¬special c) (rest : List Char) :
    parsePieces (c :: rest) = (parsePieces rest).map (.literal (.singleton c) :: ·) := by
  have plain : ∀ x, special x → c ≠ x := by
    rintro x hx rfl
    exact hc hx
  rw [parsePieces, if_neg hc]
  · exact fun _ _ h => absurd h (plain '\\' (by decide))
  · exact fun _ h => absurd h (plain '.' (by decide))
  · exact plain '.' (by decide)
  · exact plain '^' (by decide)
  · exact plain '$' (by decide)

theorem parsePieces_escaped (text rest : List Char) :
    parsePieces (text.flatMap escapeChar ++ rest) =
      (parsePieces rest).map (text.map (.literal <| .singleton ·) ++ ·) := by
  induction text with
  | nil => simp
  | cons c text ih =>
    by_cases hc : special c
    · simp [escapeChar, hc, parsePieces, ih, Function.comp_def]
    · simp [escapeChar, hc, parsePieces_plain hc, ih, Function.comp_def]

theorem parsePieces_chars (pieces : List Piece) :
    parsePieces (chars pieces) = some (pieces.flatMap Piece.singles) := by
  induction pieces with
  | nil => rfl
  | cons piece pieces ih =>
    rw [chars, List.flatMap_cons, ← chars]
    cases piece with
    | literal text => simp [Piece.text, escape, parsePieces_escaped, ih, Piece.singles]
    | dot =>
      -- a star would make dots of it
      have := head_chars (.inl rfl) pieces
      simp [Piece.text, parsePieces, ih, Piece.singles]
    | dots => simp [Piece.text, parsePieces, ih, Piece.singles]
    | start => simp [Piece.text, parsePieces, ih, Piece.singles]
    | stop => simp [Piece.text, parsePieces, ih, Piece.singles]

theorem parse_text (x : Expression) :
    parse (x.text escape) = some ⟨x.dotAll, x.pieces.flatMap Piece.singles⟩ := by
  have written : (x.text escape).toList = (if x.dotAll then "(?s)".toList else []) ++ chars x.pieces := by
    cases h : x.dotAll <;> simp [Expression.text, chars, h, List.flatMap_map]
  have := head_chars (.inr rfl) x.pieces
  cases h : x.dotAll <;> simp [parse, written, h, parsePieces_chars, this]

theorem search_documented : search.Documented := by
  refine ⟨fun {x read} h text => ?_⟩
  obtain rfl : _ = read := Option.some.inj ((parse_text x).symm.trans h)
  exact decide_eq_true_iff.trans (by simp only [Expression.FoundIn, take_flatMap_singles])

end TierCache.Regex
