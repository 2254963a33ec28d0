/-!
Glob patterns over whole texts: a star matches any run of characters, a question mark any one
character, every other character itself. The matcher keeps one truth value for each end of the
pattern, so it needs one pass over the text from its last character, whatever the stars.
-/
namespace TierCache.Glob

/-- For each end of the pattern, the whole pattern first, whether it matches the empty text. -/
def emptyRow : List Char → List Bool
  | [] => [true]
  | x :: p =>
    let row := emptyRow p
    (x = '*' && row.headD false) :: row

/-- The row for a text with `c` in front, from the row for the text. -/
def nextRow (c : Char) : List Char → List Bool → List Bool
  | x :: p, here :: rest =>
    let row := nextRow c p rest
    let first :=
      if x = '*' then row.headD false || here
      else if x = '?' then rest.headD false
      else x = c && rest.headD false
    first :: row
  | _, _ => [false]

/-- The row for a text. -/
def row (pattern : List Char) : List Char → List Bool
  | [] => emptyRow pattern
  | c :: text => nextRow c pattern (row pattern text)

def matchesChars (pattern text : List Char) : Bool := (row pattern text).headD false

/-- Whether the pattern matches the whole text. -/
def accepts (pattern text : String) : Bool := matchesChars pattern.toList text.toList

end TierCache.Glob
