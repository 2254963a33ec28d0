/-!
Regular expressions, as far as glob patterns are translated to them, and the library that compiles them and
searches for them. Of the library is known what its documentation says: how expressions are written, what
they stand for, and that a search succeeds if there is a match anywhere in the text.
-/
namespace TierCache.Regex

inductive Piece
  /-- Text that stands for itself, written with its special characters escaped. -/
  | literal (text : String)
  /-- One character. -/
  | dot
  /-- Any number of characters. -/
  | dots
  /-- The beginning of the text. -/
  | start
  /-- The end of the text. -/
  | stop
  deriving DecidableEq, Repr

/-- An expression: its pieces, one after another. -/
structure Expression where
  /-- Whether a character may be a line feed as well. -/
  dotAll : Bool
  pieces : List Piece
  deriving DecidableEq, Repr

/-- What the library offers; some expressions it does not compile, such as those that are too large. -/
structure Library (α : Type) where
  compile : String → Option α
  isMatch : α → String → Bool
  escape : String → String

section
variable (escape : String → String)

def Piece.text : Piece → String
  | literal text => escape text
  | dot => "."
  | dots => ".*"
  | start => "^"
  | stop => "$"

/-- How an expression is written. -/
def Expression.text (x : Expression) : String :=
  (if x.dotAll then "(?s)" else "") ++ String.join (x.pieces.map (·.text escape))

end

/-- The characters that a piece takes stand between those before and those after it. -/
def Piece.Takes (dotAll : Bool) (before taken after : List Char) : Piece → Prop
  | literal text => taken = text.toList
  | dot => taken.length = 1 ∧ (dotAll = true ∨ '\n' ∉ taken)
  | dots => dotAll = true ∨ '\n' ∉ taken
  | start => taken = [] ∧ before = []
  | stop => taken = [] ∧ after = []

/-- Pieces take characters one after another. -/
def Take (dotAll : Bool) : List Piece → (before taken after : List Char) → Prop
  | [], _, taken, _ => taken = []
  | piece :: rest, before, taken, after => ∃ first others, taken = first ++ others ∧
      piece.Takes dotAll before first (others ++ after) ∧ Take dotAll rest (before ++ first) others after

/-- There is a match somewhere in the text. -/
def Expression.FoundIn (x : Expression) (text : List Char) : Prop :=
  ∃ before taken after, text = before ++ taken ++ after ∧ Take x.dotAll x.pieces before taken after

/-- An expression that was compiled is found where there is a match. -/
structure Library.Documented {α : Type} (lib : Library α) : Prop where
  isMatch {x : Expression} {compiled : α} (h : lib.compile (x.text lib.escape) = some compiled)
    (text : String) : lib.isMatch compiled text = true ↔ x.FoundIn text.toList

end TierCache.Regex
