import Mathlib.Data.List.Forall2
import TierCache.Protocol.Token

/-!
The grammar of command lines. A line is read as the texts of its words exactly when it is made up of
blanks and words, and a text that was quoted is read back whatever it holds.
-/
namespace TierCache.Token

/-! ### The grammar -/

/-- The letter of an escape and the character that is meant. -/
inductive Escape : Char → Char → Prop
  | lineFeed : Escape 'n' '\n'
  | carriageReturn : Escape 'r' '\r'
  | tab : Escape 't' '\t'
  | double : Escape '"' '"'
  | single : Escape '\'' '\''
  | backslash : Escape '\\' '\\'

/-- What may stand between two quotes, and what it means there. -/
inductive Item (quote : Char) : List Char → List Char → Prop
  | escape {c e : Char} (h : Escape c e) : Item quote ['\\', c] [e]
  | pair {c : Char} (h : ∀ e, ¬ Escape c e) : Item quote ['\\', c] ['\\', c]
  | plain {c : Char} (hquote : c ≠ quote) (hback : c ≠ '\\') : Item quote [c] [c]

/-- Parts one after another, and what they mean together. -/
inductive Row (part : List Char → List Char → Prop) : List Char → List Char → Prop
  | nil : Row part [] []
  | cons {cs text ds value : List Char} (first : part cs ds) (rest : Row part text value) :
      Row part (cs ++ text) (ds ++ value)

/-- A run of bare characters, or a span between two quotes of one kind. -/
inductive Piece : List Char → List Char → Prop
  | bare {cs : List Char} (hsome : cs ≠ [])
      (hbare : ∀ c ∈ cs, Text.isBlank c = false ∧ c ≠ '"' ∧ c ≠ '\'') : Piece cs cs
  | quoted {quote : Char} {body value : List Char} (hquote : quote = '"' ∨ quote = '\'')
      (hbody : Row (Item quote) body value) : Piece (quote :: (body ++ [quote])) value

/-- A word and the text that it stands for. -/
structure Spells (word value : List Char) : Prop where
  some : word ≠ []
  row : Row Piece word value

def Blanks (gap : List Char) : Prop := ∀ c ∈ gap, Text.isBlank c = true

/-- Words with the blanks behind each: one blank at least where another word follows. -/
inductive Spaced : List (List Char) → List Char → Prop
  | nil : Spaced [] []
  | cons {word gap rest : List Char} {words : List (List Char)} (hblanks : Blanks gap)
      (hgap : words ≠ [] → gap ≠ []) (hrest : Spaced words rest) :
      Spaced (word :: words) (word ++ (gap ++ rest))

/-- The line has these words, with blanks around and between them. -/
def Laid (words : List (List Char)) (line : List Char) : Prop :=
  ∃ gap rest, Blanks gap ∧ Spaced words rest ∧ line = gap ++ rest

/-- The words spell the tokens. -/
abbrev Spell : List (List Char) → List String → Prop :=
  List.Forall₂ fun word token => Spells word token.toList

/-- The line is made up of words that spell these tokens. -/
def Line (line : List Char) (tokens : List String) : Prop :=
  ∃ words, Laid words line ∧ Spell words tokens

/-- A text between two quotes, with a backslash before each backslash and each such quote in it. -/
def quotedWith (quote : Char) (s : String) : List Char :=
  quote :: (s.toList.flatMap (fun c => if c = quote ∨ c = '\\' then ['\\', c] else [c]) ++ [quote])

/-! ### Parts -/

section
variable {part : List Char → List Char → Prop} {cs ds text value more meaning : List Char}

theorem Row.single (h : part cs ds) : Row part cs ds := by
  have hrow := Row.cons h .nil
  rwa [List.append_nil, List.append_nil] at hrow

theorem Row.append (h : Row part text value) (hmore : Row part more meaning) :
    Row part (text ++ more) (value ++ meaning) := by
  induction h with
  | nil => exact hmore
  | cons first rest ih =>
    rw [List.append_assoc, List.append_assoc]
    exact .cons first ih

end

theorem escape?_eq_some_iff {c e : Char} : escape? c = some e ↔ Escape c e := by
  constructor
  · intro h
    unfold escape? at h
    split at h
    · cases h; subst c; exact .lineFeed
    · split at h
      · cases h; subst c; exact .carriageReturn
      · split at h
        · cases h; subst c; exact .tab
        · split at h
          · rename_i hself
            cases h
            obtain rfl | rfl | rfl := hself
            · exact .double
            · exact .single
            · exact .backslash
          · cases h
  · intro h
    cases h <;> rfl

theorem item_unescape (quote c : Char) : Item quote ['\\', c] (unescape c).reverse := by
  unfold unescape
  split
  · rename_i e he
    exact .escape (escape?_eq_some_iff.1 he)
  · rename_i hnone
    refine .pair fun e he => ?_
    rw [escape?_eq_some_iff.2 he] at hnone
    cases hnone

theorem isQuote_iff {c : Char} : isQuote c = true ↔ c = '"' ∨ c = '\'' := by
  simp [isQuote]

theorem Piece.some {word value : List Char} (h : Piece word value) : word ≠ [] := by
  cases h with
  | bare hsome _ => exact hsome
  | quoted _ _ => exact List.cons_ne_nil _ _

/-! ### What is of this form is read -/

section
variable {quote : Char} {w : Word} {back text value rest : List Char}

theorem scan_item (h : Item quote text value) :
    scan (some quote) w (text ++ rest) = scan (some quote) (some (value.reverse ++ w.text)) rest := by
  cases h with
  | escape h => simp [scan, unescape, escape?_eq_some_iff.2 h]
  | pair h =>
    rename_i c
    have hnone : escape? c = none :=
      Option.eq_none_iff_forall_ne_some.2 fun e he => h e (escape?_eq_some_iff.1 he)
    simp [scan, unescape, hnone]
  | plain hquote hback => simp [scan, hquote, hback]

theorem scan_items (h : Row (Item quote) text value) :
    scan (some quote) (some back) (text ++ rest) =
      scan (some quote) (some (value.reverse ++ back)) rest := by
  induction h generalizing back with
  | nil => rfl
  | cons first _ ih =>
    rw [List.append_assoc, scan_item first, ih, List.reverse_append, List.append_assoc]
    rfl

theorem scan_bare {c : Char} (hblank : Text.isBlank c = false) (hdouble : c ≠ '"')
    (hsingle : c ≠ '\'') : scan none w (c :: rest) = scan none (some (c :: w.text)) rest := by
  simp [scan, isQuote, hblank, hdouble, hsingle]

theorem scan_piece (h : Piece text value) :
    scan none w (text ++ rest) = scan none (some (value.reverse ++ w.text)) rest := by
  cases h with
  | bare hsome hbare =>
    induction text generalizing w with
    | nil => exact absurd rfl hsome
    | cons c cs ih =>
      rw [List.forall_mem_cons] at hbare
      obtain ⟨⟨hblank, hdouble, hsingle⟩, hbare⟩ := hbare
      rw [List.cons_append, scan_bare hblank hdouble hsingle]
      by_cases hcs : cs = []
      · subst hcs
        rfl
      · rw [ih hcs hbare, List.reverse_cons, List.append_assoc]
        rfl
  | @quoted quote body _ hquote hbody =>
    have hopen := isQuote_iff.2 hquote
    have hback : quote ≠ '\\' := by
      rintro rfl
      exact absurd hopen (by decide)
    calc scan none w (quote :: (body ++ [quote]) ++ rest)
        = scan (some quote) (some w.text) (body ++ quote :: rest) := by simp [scan, hopen]
      _ = scan (some quote) (some (value.reverse ++ w.text)) (quote :: rest) := scan_items hbody
      _ = scan none (some (value.reverse ++ w.text)) rest := by simp [scan, hback, Word.text]

theorem scan_row (h : Row Piece text value) :
    scan none (some back) (text ++ rest) = scan none (some (value.reverse ++ back)) rest := by
  induction h generalizing back with
  | nil => rfl
  | cons first _ ih =>
    rw [List.append_assoc, scan_piece first, ih, List.reverse_append, List.append_assoc]
    rfl

theorem scan_word (h : Spells text value) :
    scan none none (text ++ rest) = scan none (some value.reverse) rest := by
  obtain ⟨hsome, hrow⟩ := h
  cases hrow with
  | nil => exact absurd rfl hsome
  | cons first more =>
    rw [List.append_assoc, scan_piece first, scan_row more, List.reverse_append, Word.text,
      Option.getD_none, List.append_nil]

theorem scan_blank {c : Char} (h : Text.isBlank c = true) :
    scan none w (c :: rest) = (scan none none rest).map w.push := by
  have hquote : isQuote c = false := by
    rw [Bool.eq_false_iff, ne_eq, isQuote_iff]
    rintro (rfl | rfl) <;> exact absurd h (by decide)
  simp [scan, hquote, h]

theorem map_push_none (r : Except CacheError (List String)) : r.map (Word.push none) = r := by
  cases r <;> rfl

theorem scan_blanks {gap : List Char} (h : Blanks gap) :
    scan none none (gap ++ rest) = scan none none rest := by
  induction gap with
  | nil => rfl
  | cons c gap ih =>
    rw [Blanks, List.forall_mem_cons] at h
    rw [List.cons_append, scan_blank h.1, map_push_none, ih h.2]

theorem scan_gap {gap : List Char} (h : Blanks gap) (hsome : gap ≠ []) :
    scan none w (gap ++ rest) = (scan none none rest).map w.push := by
  cases gap with
  | nil => exact absurd rfl hsome
  | cons c gap =>
    rw [Blanks, List.forall_mem_cons] at h
    rw [List.cons_append, scan_blank h.1, scan_blanks h.2]

end

theorem scan_spaced {words : List (List Char)} {rest : List Char} (h : Spaced words rest)
    {tokens : List String} (hspell : Spell words tokens) : scan none none rest = .ok tokens := by
  induction h generalizing tokens with
  | nil =>
    cases hspell
    rfl
  | @cons word gap rest words hblanks hgap hrest ih =>
    obtain _ | ⟨hword, hwords⟩ := hspell
    rename_i token tokens
    have hpush : Word.push (some token.toList.reverse) tokens = token :: tokens := by simp [Word.push]
    rw [scan_word hword]
    by_cases hempty : gap = []
    · -- nothing is behind a word without a blank
      subst hempty
      have hlast : words = [] := by
        by_contra hmore
        exact hgap hmore rfl
      subst hlast
      cases hwords
      cases hrest
      exact congrArg Except.ok hpush
    · rw [scan_gap hblanks hempty, ih hwords]
      exact congrArg Except.ok hpush

theorem tokenize_of_line {line : String} {tokens : List String} (h : Line line.toList tokens) :
    tokenize line = .ok tokens := by
  obtain ⟨words, ⟨gap, rest, hblanks, hspaced, hline⟩, hspell⟩ := h
  rw [tokenize, hline, scan_blanks hblanks, scan_spaced hspaced hspell]

/-! ### What is read is of this form -/

/-- The rest of a line outside of quotes, with the word begun, is read as the tokens: it goes on with
parts of the word, if there is one, and then blanks and further words. -/
def Begun : Word → List Char → List String → Prop
  | none, cs, tokens => Line cs tokens
  | some back, cs, tokens => ∃ text value gap rest words later,
      cs = text ++ (gap ++ rest) ∧ Row Piece text value ∧ Blanks gap ∧ (words ≠ [] → gap ≠ []) ∧
      Spaced words rest ∧ Spell words later ∧
      tokens = String.ofList (back.reverse ++ value) :: later

/-- The rest of a line inside of quotes closes them first. -/
def Remains : Option Char → Word → List Char → List String → Prop
  | none, w, cs, tokens => Begun w cs tokens
  | some quote, w, cs, tokens => ∃ body value rest, cs = body ++ quote :: rest ∧
      Row (Item quote) body value ∧ Begun (some (value.reverse ++ w.text)) rest tokens

section
variable {w : Word} {cs : List Char} {tokens : List String}

theorem line_nil : Line [] [] := ⟨[], ⟨[], [], nofun, .nil, rfl⟩, .nil⟩

theorem Line.blank {c : Char} (hc : Text.isBlank c = true) (h : Line cs tokens) :
    Line (c :: cs) tokens := by
  obtain ⟨words, ⟨gap, rest, hblanks, hspaced, rfl⟩, hspell⟩ := h
  exact ⟨words, ⟨c :: gap, rest, List.forall_mem_cons.2 ⟨hc, hblanks⟩, hspaced, rfl⟩, hspell⟩

theorem begun_nil (w : Word) : Begun w [] (w.push []) := by
  cases w with
  | none => exact line_nil
  | some back =>
    refine ⟨[], [], [], [], [], [], rfl, .nil, nofun, fun h => absurd rfl h, .nil, .nil, ?_⟩
    rw [List.append_nil]
    rfl

theorem Begun.blank {c : Char} (hc : Text.isBlank c = true) (h : Line cs tokens) (w : Word) :
    Begun w (c :: cs) (w.push tokens) := by
  cases w with
  | none => exact h.blank hc
  | some back =>
    obtain ⟨words, ⟨gap, rest, hblanks, hspaced, rfl⟩, hspell⟩ := h
    refine ⟨[], [], c :: gap, rest, words, tokens, rfl, .nil,
      List.forall_mem_cons.2 ⟨hc, hblanks⟩, fun _ => List.cons_ne_nil _ _, hspaced, hspell, ?_⟩
    rw [List.append_nil]
    rfl

theorem Begun.piece {part value : List Char} (hpart : Piece part value)
    (h : Begun (some (value.reverse ++ w.text)) cs tokens) : Begun w (part ++ cs) tokens := by
  obtain ⟨text, more, gap, rest, words, later, rfl, hrow, hblanks, hgap, hspaced, hspell, rfl⟩ := h
  rw [List.reverse_append, List.reverse_reverse, List.append_assoc, ← List.append_assoc part]
  cases w with
  | none =>
    have hword : Spells (part ++ text) (value ++ more) :=
      ⟨List.append_ne_nil_of_left_ne_nil hpart.some _, .cons hpart hrow⟩
    refine ⟨(part ++ text) :: words, ⟨[], _, nofun, .cons hblanks hgap hspaced, rfl⟩, .cons ?_ hspell⟩
    rwa [String.toList_ofList]
  | some back =>
    exact ⟨_, _, gap, rest, words, later, rfl, .cons hpart hrow, hblanks, hgap, hspaced, hspell, rfl⟩

theorem Begun.quoted {quote : Char} (hquote : isQuote quote = true)
    (h : Remains (some quote) (some w.text) cs tokens) : Begun w (quote :: cs) tokens := by
  obtain ⟨body, value, rest, rfl, hbody, hbegun⟩ := h
  have hpiece : Piece (quote :: (body ++ [quote])) value := .quoted (isQuote_iff.1 hquote) hbody
  have hmore : Begun w (quote :: (body ++ [quote]) ++ rest) tokens := Begun.piece hpiece hbegun
  simpa using hmore

theorem Begun.bare {c : Char} (hquote : isQuote c = false) (hblank : Text.isBlank c = false)
    (h : Begun (some (c :: w.text)) cs tokens) : Begun w (c :: cs) tokens := by
  have hpiece : Piece [c] [c] := by
    refine .bare (List.cons_ne_nil _ _) (List.forall_mem_singleton.2 ⟨hblank, ?_⟩)
    rwa [← not_or, ← isQuote_iff, Bool.not_eq_true]
  exact Begun.piece hpiece h

theorem Remains.item {quote : Char} {part value : List Char} (hitem : Item quote part value)
    (h : Remains (some quote) (some (value.reverse ++ w.text)) cs tokens) :
    Remains (some quote) w (part ++ cs) tokens := by
  obtain ⟨body, more, rest, rfl, hbody, hbegun⟩ := h
  refine ⟨part ++ body, value ++ more, rest, by rw [List.append_assoc], .cons hitem hbody, ?_⟩
  rwa [List.reverse_append, List.append_assoc]

theorem remains_of_scan {quote : Option Char} (h : scan quote w cs = .ok tokens) :
    Remains quote w cs tokens := by
  fun_induction scan quote w cs generalizing tokens with
  | case1 w =>
    cases h
    exact begun_nil w
  | case2 => cases h
  | case3 quote w c rest ih =>
    have hrest := ih h
    rw [← List.reverse_reverse (unescape c)] at hrest
    exact Remains.item (item_unescape quote c) hrest
  | case4 w quote rest _ ih => exact ⟨[], [], rest, rfl, .nil, ih h⟩
  | case5 quote w c rest hpair hne ih =>
    have hback : c ≠ '\\' := by
      -- a backslash at the end leaves the quotes open
      intro hc
      cases rest with
      | nil => cases h
      | cons d rest => exact hpair d rest hc rfl
    have hplain : Item quote [c] [c] := .plain hne hback
    exact Remains.item hplain (ih h)
  | case6 w c rest hquote ih => exact Begun.quoted hquote (ih h)
  | case7 w c rest _ hblank ih =>
    cases hlater : scan none none rest with
    | error e =>
      rw [hlater] at h
      cases h
    | ok later =>
      rw [hlater] at h
      cases h
      exact Begun.blank hblank (ih hlater) w
  | case8 w c rest hquote hblank ih =>
    exact Begun.bare (Bool.eq_false_iff.2 hquote) (Bool.eq_false_iff.2 hblank) (ih h)

end

theorem tokenize_eq_ok_iff {line : String} {tokens : List String} :
    tokenize line = .ok tokens ↔ Line line.toList tokens :=
  ⟨fun h => remains_of_scan h, tokenize_of_line⟩

/-! ### Quoted texts -/

theorem row_escaped {quote : Char} (hquote : quote = '"' ∨ quote = '\'') (cs : List Char) :
    Row (Item quote) (cs.flatMap fun c => if c = quote ∨ c = '\\' then ['\\', c] else [c]) cs := by
  induction cs with
  | nil => exact .nil
  | cons c cs ih =>
    have hitem : Item quote (if c = quote ∨ c = '\\' then ['\\', c] else [c]) [c] := by
      split
      · rename_i hc
        refine .escape ?_
        obtain rfl | rfl := hc
        · obtain rfl | rfl := hquote
          · exact .double
          · exact .single
        · exact .backslash
      · rename_i hc
        rw [not_or] at hc
        exact .plain hc.1 hc.2
    rw [List.flatMap_cons]
    exact .cons hitem ih

theorem spells_quotedWith {quote : Char} (hquote : quote = '"' ∨ quote = '\'') (s : String) :
    Spells (quotedWith quote s) s.toList :=
  ⟨List.cons_ne_nil _ _, .single (.quoted hquote (row_escaped hquote s.toList))⟩

theorem spell_quotedWith {texts : List (Char × String)}
    (h : ∀ t ∈ texts, t.1 = '"' ∨ t.1 = '\'') :
    Spell (texts.map fun t => quotedWith t.1 t.2) (texts.map (·.2)) := by
  induction texts with
  | nil => exact .nil
  | cons t texts ih =>
    rw [List.forall_mem_cons] at h
    exact .cons (spells_quotedWith h.1 t.2) (ih h.2)

/-- The tokens of a line are what its words spell, and a line that is not made up of words has none.
Texts that were quoted, each with either quote, and laid out with blanks are the tokens again. -/
theorem tokenize_line (line : String) :
    (∀ tokens, tokenize line = .ok tokens ↔ Line line.toList tokens) ∧
      ∀ texts : List (Char × String), (∀ t ∈ texts, t.1 = '"' ∨ t.1 = '\'') →
        Laid (texts.map fun t => quotedWith t.1 t.2) line.toList →
        tokenize line = .ok (texts.map (·.2)) :=
  ⟨fun _ => tokenize_eq_ok_iff, fun _ hquote hlaid =>
    tokenize_of_line ⟨_, hlaid, spell_quotedWith hquote⟩⟩

/-- Two texts in different quotes that stand close together: a blank, a backslash and both quotes are
in them. -/
theorem tokenize_line_mixed :
    let texts := [('"', "a \" \\"), ('\'', "' \"")]
    let line := " \"a \\\" \\\\\"\t'\\' \"'"
    (∀ t ∈ texts, t.1 = '"' ∨ t.1 = '\'') ∧
      Laid (texts.map fun t => quotedWith t.1 t.2) line.toList ∧
      tokenize line = .ok ["a \" \\", "' \""] := by
  intro texts line
  have hquote : ∀ t ∈ texts, t.1 = '"' ∨ t.1 = '\'' := by decide
  have hlast : Spaced [quotedWith '\'' "' \""] (quotedWith '\'' "' \"" ++ ([] ++ [])) :=
    .cons nofun (fun h => absurd rfl h) .nil
  have hwords : Spaced (texts.map fun t => quotedWith t.1 t.2)
      (quotedWith '"' "a \" \\" ++ (['\t'] ++ (quotedWith '\'' "' \"" ++ ([] ++ [])))) :=
    .cons (List.forall_mem_singleton.2 rfl) (fun _ => List.cons_ne_nil _ _) hlast
  have hlaid : Laid (texts.map fun t => quotedWith t.1 t.2) line.toList :=
    ⟨[' '], _, List.forall_mem_singleton.2 rfl, hwords, by decide⟩
  exact ⟨hquote, hlaid, (tokenize_line line).2 texts hquote hlaid⟩

end TierCache.Token
