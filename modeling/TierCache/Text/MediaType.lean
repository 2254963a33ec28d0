import TierCache.Text.Blank

/-!
Media types as they are named in a request: a type, a subtype that may have a suffix after a plus
sign, and parameters.
-/
namespace TierCache.Text

structure MediaType where
  type : String
  subtype : String
  suffix : Option String
  deriving DecidableEq, Repr

namespace MediaType

/-- The characters of a word. -/
def isTokenChar (c : Char) : Bool := c.isAlphanum || "!#$%&'*+-.^_\x60|~".toList.contains c

/-- The characters that a quoted value holds. -/
def isQuotedChar (c : Char) : Bool := c = '\t' || (0x20 ≤ c.toNat && c.toNat ≠ 0x7F && c ≠ '"')

/-- Whether parameters are well formed: names with values, parted by semicolons; a value may stand
in quotes. The fuel bounds their number. -/
def parameters : Nat → List Char → Bool
  | 0, _ => false
  | fuel + 1, cs =>
    let start := cs.dropWhile (· = ' ')
    if cs = [] then true
    else if start.takeWhile isTokenChar = [] then false
    else match start.dropWhile isTokenChar with
      | '=' :: '"' :: rest =>
        if rest.takeWhile isQuotedChar = [] then false
        else match rest.dropWhile isQuotedChar with
          | '"' :: rest => match rest.dropWhile (· = ' ') with
            | [] => true
            | ';' :: rest => parameters fuel rest
            | _ => false
          | _ => false
      | '=' :: rest =>
        match rest.takeWhile isTokenChar, rest.dropWhile isTokenChar with
        | _, [] => true
        | _ :: _, ';' :: rest => parameters fuel rest
        | _, _ => false
      | _ => false

/-- The subtype and its suffix, which is what follows the last plus sign inside. -/
def splitSuffix (name : List Char) : List Char × Option (List Char) :=
  let last := (name.reverse.takeWhile (· ≠ '+')).reverse
  let front := name.take (name.length - last.length - 1)
  if front = [] then (name, none) else (front, some last)

/-- Reads a media type; letters become small. -/
def ofText? (s : String) : Option MediaType :=
  let cs := (lower s).toList
  match cs.takeWhile isTokenChar, cs.dropWhile isTokenChar with
  | [], _ => none
  | type, '/' :: rest =>
    let name := rest.takeWhile isTokenChar
    let good := match rest.dropWhile isTokenChar with
      | [] => true
      | c :: rest => (c = ';' || c = ' ') && parameters (rest.length + 1) rest
    if name ≠ [] && good then
      let (front, suffix) := splitSuffix name
      some ⟨String.ofList type, String.ofList front, suffix.map String.ofList⟩
    else none
  | _, _ => none

/-- Whether the type is for JSON. -/
def isJson (m : MediaType) : Bool :=
  m.type = "application" && (m.subtype = "json" || m.suffix = some "json")

end MediaType
end TierCache.Text
