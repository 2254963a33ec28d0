import TierCache.Error
import TierCache.Text.Blank

/-!
The tokens of a command line: words between blanks. A quoted span, in double or single quotes, may
stand anywhere in a word; it holds blanks and the other quote as they are, and some escapes.
-/
namespace TierCache.Token

def isQuote (c : Char) : Bool := c = '"' || c = '\''

/-- The character that a backslash and this one stand for inside quotes. -/
def escape? (c : Char) : Option Char :=
  if c = 'n' then some '\n'
  else if c = 'r' then some '\r'
  else if c = 't' then some '\t'
  else if c = '"' ∨ c = '\'' ∨ c = '\\' then some c
  else none

/-- What a backslash and a character stand for inside quotes, in reverse; a pair that is no escape
stays as it is. -/
def unescape (c : Char) : List Char :=
  match escape? c with
  | some e => [e]
  | none => [c, '\\']

/-- A word that was begun: what is known of its text, in reverse, or that there is none yet. -/
abbrev Word := Option (List Char)

def Word.text (w : Word) : List Char := w.getD []

/-- The token of a word, in front of those that follow. -/
def Word.push (w : Word) (tokens : List String) : List String :=
  match w with
  | some back => String.ofList back.reverse :: tokens
  | none => tokens

/-- A line whose last quote is not closed. -/
def unterminated (quote : Char) : CacheError :=
  .malformedLine ("unterminated quote (" ++ String.singleton quote ++ ")")

/-- The tokens of the rest of a line, inside or outside of a quoted span, with the word begun. -/
def scan : (quote : Option Char) → Word → List Char → Except CacheError (List String)
  | none, w, [] => .ok (w.push [])
  | some q, _, [] => .error (unterminated q)
  | some q, w, '\\' :: c :: rest => scan (some q) (some (unescape c ++ w.text)) rest
  | some q, w, c :: rest =>
    if c = q then scan none (some w.text) rest
    else scan (some q) (some (c :: w.text)) rest
  | none, w, c :: rest =>
    if isQuote c then scan (some c) (some w.text) rest
    else if Text.isBlank c then (scan none none rest).map w.push
    else scan none (some (c :: w.text)) rest

/-- The tokens of a line. -/
def tokenize (line : String) : Except CacheError (List String) := scan none none line.toList

end TierCache.Token
