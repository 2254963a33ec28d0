import TierCache.Text.Blank

/-!
The lines of a text. A line ends with a line feed, before which one carriage return belongs to the
end; the last line may lack its end.
-/
namespace TierCache.Text

/-- A line without the carriage return at its end. -/
def dropReturn (line : List Char) : List Char :=
  match line.reverse with
  | '\r' :: back => back.reverse
  | _ => line

/-- The lines of the text; `line` is the part of the first one already read, in reverse. -/
def linesFrom (line : List Char) : List Char → List (List Char)
  | [] => if line = [] then [] else [line.reverse]
  | '\n' :: rest => dropReturn line.reverse :: linesFrom [] rest
  | c :: rest => linesFrom (c :: line) rest

def lines (cs : List Char) : List (List Char) := linesFrom [] cs

/-- Whether a line holds nothing but blanks. -/
def isBlankLine (line : List Char) : Bool := line.all isBlank

end TierCache.Text
