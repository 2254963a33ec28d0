import Mathlib.Computability.Language
import TierCache.Glob

/-!
What glob patterns match: a pattern is a product of languages, one for each of its characters, and the
matcher accepts the texts of that product.
-/
namespace TierCache.Glob

/-- The texts that one character of a pattern matches. -/
def one (x : Char) : Language Char :=
  {text | if x = '*' then True else if x = '?' then text.length = 1 else text = [x]}

def language (pattern : List Char) : Language Char := (pattern.map one).prod

theorem mem_mul_iff {l m : Language Char} {text : List Char} :
    text ∈ l * m ↔ ∃ first others, text = first ++ others ∧ first ∈ l ∧ others ∈ m := by
  rw [Language.mem_mul]
  constructor
  · rintro ⟨first, hf, others, ho, rfl⟩
    exact ⟨first, others, rfl, hf, ho⟩
  · rintro ⟨first, others, rfl, hf, ho⟩
    exact ⟨first, hf, others, ho, rfl⟩

theorem mem_language_nil {text : List Char} : text ∈ language [] ↔ text = [] := by
  simp [language, Language.mem_one]

theorem mem_language_cons {x : Char} {pattern text : List Char} :
    text ∈ language (x :: pattern) ↔
      ∃ first others, text = first ++ others ∧ first ∈ one x ∧ others ∈ language pattern := by
  rw [language, List.map_cons, List.prod_cons]
  exact mem_mul_iff

theorem mem_language_append {p q text : List Char} :
    text ∈ language (p ++ q) ↔
      ∃ first others, text = first ++ others ∧ first ∈ language p ∧ others ∈ language q := by
  rw [language, List.map_append, List.prod_append]
  exact mem_mul_iff

theorem mem_language_singleton {x : Char} {text : List Char} : text ∈ language [x] ↔ text ∈ one x := by
  simp [language]

theorem mem_one {x : Char} {text : List Char} :
    text ∈ one x ↔ if x = '*' then True else if x = '?' then text.length = 1 else text = [x] := .rfl

/-- A star takes nothing, or the next character and then more. -/
theorem mem_language_star {pattern text : List Char} :
    text ∈ language ('*' :: pattern) ↔
      text ∈ language pattern ∨ ∃ c rest, text = c :: rest ∧ rest ∈ language ('*' :: pattern) := by
  simp only [mem_language_cons, mem_one, if_true, true_and]
  constructor
  · rintro ⟨first, others, rfl, ho⟩
    cases first with
    | nil => exact .inl ho
    | cons c first => exact .inr ⟨c, _, rfl, first, others, rfl, ho⟩
  · rintro (ho | ⟨c, _, rfl, first, others, rfl, ho⟩)
    · exact ⟨[], text, rfl, ho⟩
    · exact ⟨c :: first, others, rfl, ho⟩

theorem mem_language_question {pattern text : List Char} :
    text ∈ language ('?' :: pattern) ↔ ∃ c rest, text = c :: rest ∧ rest ∈ language pattern := by
  simp only [mem_language_cons, mem_one, Char.reduceEq, if_false, if_true, List.length_eq_one_iff]
  constructor
  · rintro ⟨_, others, rfl, ⟨c, rfl⟩, ho⟩
    exact ⟨c, others, rfl, ho⟩
  · rintro ⟨c, others, rfl, ho⟩
    exact ⟨[c], others, rfl, ⟨c, rfl⟩, ho⟩

theorem mem_language_char {x : Char} (hs : x ≠ '*') (hq : x ≠ '?') {pattern text : List Char} :
    text ∈ language (x :: pattern) ↔ ∃ rest, text = x :: rest ∧ rest ∈ language pattern := by
  simp only [mem_language_cons, mem_one, hs, hq, if_false]
  constructor
  · rintro ⟨_, others, rfl, rfl, ho⟩
    exact ⟨others, rfl, ho⟩
  · rintro ⟨others, rfl, ho⟩
    exact ⟨[x], others, rfl, rfl, ho⟩

section Matcher
/-! The matcher's rows hold one answer for each end of the pattern. -/

theorem row_cons (x : Char) (pattern text : List Char) :
    row (x :: pattern) text = matchesChars (x :: pattern) text :: row pattern text := by
  induction text with
  | nil => rfl
  | cons c text ih =>
    simp only [matchesChars, row]
    rw [ih]
    rfl

theorem matchesChars_nil (text : List Char) : matchesChars [] text = text.isEmpty := by
  cases text <;> rfl

theorem matchesChars_cons_nil (x : Char) (pattern : List Char) :
    matchesChars (x :: pattern) [] = (x = '*' && matchesChars pattern []) := rfl

theorem matchesChars_cons_cons (x c : Char) (pattern text : List Char) :
    matchesChars (x :: pattern) (c :: text) =
      if x = '*' then matchesChars pattern (c :: text) || matchesChars (x :: pattern) text
      else if x = '?' then matchesChars pattern text
      else x = c && matchesChars pattern text := by
  conv => lhs; rw [matchesChars, row, row_cons]
  rfl

theorem matchesChars_iff {pattern text : List Char} :
    matchesChars pattern text = true ↔ text ∈ language pattern := by
  induction pattern generalizing text with
  | nil => simp [matchesChars_nil, mem_language_nil]
  | cons x pattern ih =>
    by_cases hs : x = '*'
    · subst hs
      -- the star's own answers, from the end of the text on
      induction text with
      | nil =>
        rw [matchesChars_cons_nil, mem_language_star]
        simp [ih]
      | cons c text ihText =>
        rw [matchesChars_cons_cons, mem_language_star]
        simp [ih, ihText]
    · by_cases hq : x = '?'
      · subst hq
        rw [mem_language_question]
        cases text with
        | nil => simp [matchesChars_cons_nil]
        | cons c text => simp [matchesChars_cons_cons, ih]
      · rw [mem_language_char hs hq]
        cases text with
        | nil => simp [matchesChars_cons_nil, hs]
        | cons c text => simp [matchesChars_cons_cons, hs, hq, ih, eq_comm (a := x)]

/-- A star accepts every text. -/
theorem accepts_star (text : String) : accepts "*" text = true := by
  rw [accepts, matchesChars_iff]
  exact mem_language_singleton.mpr (mem_one.mpr trivial)

end Matcher

end TierCache.Glob
