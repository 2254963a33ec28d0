import TierCache.Engine.Keys
import TierCache.Glob.Compiled
import TierCache.Proofs.Glob.Language
import TierCache.Proofs.Glob.Search

/-!
Patterns by way of regular expressions match the same texts: the expression for a pattern has the pattern's
language, and what is kept of compiled expressions never answers for another pattern.
-/
namespace TierCache.Glob
open Regex Std

section Translation
/-! The expression for a pattern, by its pieces. -/

/-- The pieces of a pattern, behind the characters since the last wildcard. -/
def pieces (literal : String) : List Char → List Piece
  | [] => [.literal literal]
  | c :: rest =>
    if c = '*' then .literal literal :: .dots :: pieces "" rest
    else if c = '?' then .literal literal :: .dot :: pieces "" rest
    else pieces (literal.push c) rest

def expression (pattern : String) : Expression :=
  { dotAll := true, pieces := .start :: (pieces "" pattern.toList ++ [.stop]) }

theorem translate_eq (escape : String → String) (pattern : List Char) : ∀ source literal,
    translate escape source literal pattern =
      source ++ String.join ((pieces literal pattern).map (·.text escape)) ++ "$" := by
  induction pattern with
  | nil => simp [translate, pieces, Piece.text]
  | cons c rest ih =>
    intro source literal
    by_cases hs : c = '*'
    · simp [translate, pieces, hs, ih, Piece.text, String.append_assoc]
    · by_cases hq : c = '?'
      · simp [translate, pieces, hq, ih, Piece.text, String.append_assoc]
      · simp [translate, pieces, hs, hq, ih]

theorem source_eq (escape : String → String) (pattern : String) :
    source escape pattern = (expression pattern).text escape := by
  simp [source, translate_eq, expression, Expression.text, Piece.text, ← String.append_assoc]

example : source escape "a.?" = "(?s)^a\\..$" := by decide +kernel

theorem take_pieces (pattern : List Char) : ∀ literal before taken after,
    Take true (pieces literal pattern) before taken after ↔
      ∃ others, taken = literal.toList ++ others ∧ others ∈ language pattern := by
  induction pattern with
  | nil => simp [pieces, Take, Piece.Takes, mem_language_nil]
  | cons c rest ih =>
    intro literal before taken after
    by_cases hs : c = '*'
    · simp [pieces, hs, Take, Piece.Takes, ih, mem_language_cons, mem_one]
    · by_cases hq : c = '?'
      · simp [pieces, hq, Take, Piece.Takes, ih, mem_language_cons, mem_one]
      · simp [pieces, hs, hq, ih, mem_language_char]

/-- The anchors leave no place for a match but the whole text. -/
theorem expression_foundIn {pattern : String} {text : List Char} :
    (expression pattern).FoundIn text ↔ text ∈ language pattern.toList := by
  simp only [Expression.FoundIn, expression, Take, take_append, take_pieces, Piece.Takes]
  constructor
  · rintro ⟨_, _, _, rfl, _, _, rfl, ⟨rfl, rfl⟩, _, _, rfl, ⟨others, rfl, ho⟩, _, _, rfl, ⟨rfl, ha⟩, rfl⟩
    simp_all
  · intro h
    refine ⟨[], text, [], ?_, [], text, ?_, ⟨rfl, rfl⟩, text, [], ?_, ⟨text, ?_, h⟩, [], [], ?_, ⟨rfl, ?_⟩, rfl⟩
    all_goals simp

end Translation

section Keeping
/-! The compiled expressions that are kept are those that would be made again. -/

variable {α : Type} {lib : Library α} {cache : Cache α}

def Sound (lib : Library α) (cache : Cache α) : Prop :=
  ∀ pattern found, cache[pattern]? = some found → lib.compile (source lib.escape pattern) = some found

theorem sound_empty : Sound lib ∅ := by
  intro pattern found h
  simp at h

theorem Sound.insert (sound : Sound lib cache) {pattern : String} {made : α}
    (h : lib.compile (source lib.escape pattern) = some made) : Sound lib (cache.insert pattern made) := by
  intro other found hf
  simp only [ExtTreeMap.getElem?_insert, Std.compare_eq_iff_eq] at hf
  split at hf
  · next same =>
    subst same
    exact h.trans hf
  · exact sound _ _ hf

theorem Sound.compiled (sound : Sound lib cache) (pattern : String) :
    (compiled lib pattern cache).1 = lib.compile (source lib.escape pattern) ∧
      Sound lib (compiled lib pattern cache).2 := by
  unfold Glob.compiled
  cases kept : cache[pattern]? with
  | some found => exact ⟨(sound _ _ kept).symm, sound⟩
  | none =>
    cases made : lib.compile (source lib.escape pattern) with
    | none => exact ⟨rfl, sound⟩
    | some made' =>
      refine ⟨rfl, Sound.insert ?_ made⟩
      split
      · exact sound_empty
      · exact sound

theorem isMatch_eq (pattern text : String) (cache : Cache α) :
    isMatch lib pattern text cache =
      ((compiled lib pattern cache).1.any (lib.isMatch · text), (compiled lib pattern cache).2) := by
  unfold isMatch
  split <;> simp_all

theorem Sound.after (sound : Sound lib cache) (asked : List (String × String)) :
    Sound lib (after lib asked cache) := by
  induction asked generalizing cache with
  | nil => exact sound
  | cons first asked ih =>
    refine ih ?_
    change Sound lib (isMatch lib first.1 first.2 cache).2
    rw [isMatch_eq]
    exact (sound.compiled _).2

/-- Whether the library compiles the expression for a pattern. -/
def compiles (lib : Library α) (pattern : String) : Bool :=
  (lib.compile (source lib.escape pattern)).isSome

/-- Whether a pattern matches a text, after other patterns were matched against other texts. -/
def matched (lib : Library α) (asked : List (String × String)) (pattern text : String) : Bool :=
  (isMatch lib pattern text (after lib asked ∅)).1

variable (documented : lib.Documented) (asked : List (String × String))
include documented

/-- Whatever was asked before, a pattern matches what its language holds, if the library compiles it. -/
theorem matched_iff (pattern text : String) :
    matched lib asked pattern text ↔ compiles lib pattern ∧ text.toList ∈ language pattern.toList := by
  rw [matched, isMatch_eq, (sound_empty.after asked).compiled pattern |>.1, compiles]
  cases made : lib.compile (source lib.escape pattern) with
  | none => simp
  | some found =>
    rw [source_eq] at made
    simp [documented.isMatch made, expression_foundIn]

theorem matched_eq (pattern text : String) :
    matched lib asked pattern text = (compiles lib pattern && accepts pattern text) := by
  rw [Bool.eq_iff_iff, matched_iff documented, Bool.and_eq_true, accepts, matchesChars_iff]

theorem matched_append {p q : String} (hp : compiles lib p) (hq : compiles lib q)
    (hpq : compiles lib (p ++ q)) (text : String) :
    matched lib asked (p ++ q) text ↔
      ∃ t₁ t₂, text = t₁ ++ t₂ ∧ matched lib asked p t₁ ∧ matched lib asked q t₂ := by
  simp only [matched_iff documented, hp, hq, hpq, true_and, String.toList_append, mem_language_append]
  constructor
  · rintro ⟨first, others, ht, hf, ho⟩
    exact ⟨.ofList first, .ofList others, String.toList_inj.mp (by simpa using ht), by simpa, by simpa⟩
  · rintro ⟨t₁, t₂, rfl, h₁, h₂⟩
    exact ⟨_, _, String.toList_append, h₁, h₂⟩

/-- With a library that searches as documented, patterns are matched as the glob language has it. A pattern
that the library does not compile, as one that is too large, matches nothing. -/
theorem matched_exact :
    (∀ p t, matched lib asked p t = (compiles lib p && accepts p t)) ∧
    (∀ p q t, compiles lib p → compiles lib q → compiles lib (p ++ q) →
      (matched lib asked (p ++ q) t ↔
        ∃ t₁ t₂, t = t₁ ++ t₂ ∧ matched lib asked p t₁ ∧ matched lib asked q t₂)) ∧
    (∀ t, compiles lib "" → (matched lib asked "" t ↔ t = "")) ∧
    (∀ t, compiles lib "*" → matched lib asked "*" t) ∧
    (∀ t, compiles lib "?" → (matched lib asked "?" t ↔ t.length = 1)) ∧
    (∀ c t, c ≠ '*' → c ≠ '?' → compiles lib (.singleton c) →
      (matched lib asked (.singleton c) t ↔ t = .singleton c)) := by
  have meaning := matched_iff documented asked
  refine ⟨matched_eq documented asked, fun p q t => (matched_append documented asked · · · t),
    fun t h => ?_, fun t h => ?_, fun t h => ?_, fun c t hs hq h => ?_⟩
  · simp [meaning, h, mem_language_nil]
  · simp [meaning, h, mem_language_singleton, mem_one]
  · simp [meaning, h, mem_language_singleton, mem_one, String.length_toList]
  · simp [meaning, h, mem_language_singleton, mem_one, hs, hq, ← String.toList_inj]

omit asked in
/-- The keys of a region may be listed by way of expressions, whatever was asked before each of them. -/
theorem keys_eq_matched {σ : Type} [Store σ] (e : Engine σ) (now : Nat) (region : String)
    {pattern : String} (h : compiles lib pattern) (asked : String → List (String × String)) :
    e.keys now region pattern = match e.region? region with
      | some s => e.filterLive now region
          (s.known.toList.filter fun key => matched lib (asked key) pattern key)
      | none => ([], e) := by
  simp only [matched_eq documented, h, Bool.true_and]
  rfl

end Keeping

theorem search_compiles (pattern : String) : compiles search pattern := by
  rw [compiles, source_eq]
  exact Option.isSome_of_eq_some (parse_text _)

theorem matched_exact_search :
    let asked := [("a*", "b"), ("a.?", "")]
    matched search asked "a.?" "a.\n" ∧ ¬matched search asked "a.?" "ab\n" ∧
      matched search asked ("a.?" ++ "*b") "a.\nxyb" ∧ matched search asked "" "" ∧
      matched search asked "*" "\n(" ∧ matched search asked "?" "é" ∧ ¬matched search asked "$" "" := by
  intro asked
  obtain ⟨exact, append, empty, star, question, single⟩ := matched_exact search_documented asked
  have h₁ : matched search asked "a.?" "a.\n" := by
    rw [exact, search_compiles]
    decide +kernel
  have h₂ : matched search asked "*b" "xyb" := by
    rw [exact, search_compiles]
    decide +kernel
  refine ⟨h₁, ?_, ?_, ?_, ?_, ?_, ?_⟩
  · rw [exact, search_compiles]
    decide +kernel
  · exact (append _ _ _ (search_compiles _) (search_compiles _) (search_compiles _)).mpr
      ⟨_, _, by decide, h₁, h₂⟩
  · exact (empty "" (search_compiles _)).mpr rfl
  · exact star _ (search_compiles _)
  · exact (question "é" (search_compiles _)).mpr (by decide)
  · exact fun h => absurd ((single '$' "" (by decide) (by decide) (search_compiles _)).mp h) (by decide)

end TierCache.Glob
