import Std.Data.ExtTreeMap
import TierCache.Regex

/-!
Glob patterns by way of regular expressions. A pattern is translated to an expression for the whole text,
and the compiled expressions are kept for the next time.
-/
namespace TierCache.Glob
open Regex Std

/-- Writes the expression for the rest of a pattern behind what is written so far. The characters since the
last wildcard are gathered, to be escaped together. -/
def translate (escape : String → String) (source literal : String) : List Char → String
  | [] => source ++ escape literal ++ "$"
  | c :: rest =>
    if c = '*' then translate escape (source ++ escape literal ++ ".*") "" rest
    else if c = '?' then translate escape (source ++ escape literal ++ ".") "" rest
    else translate escape source (literal.push c) rest

/-- The expression for a pattern, as it is written. -/
def source (escape : String → String) (pattern : String) : String :=
  translate escape "(?s)^" "" pattern.toList

/-- The expressions that were compiled, by pattern. -/
abbrev Cache (α : Type) := ExtTreeMap String α

/-- From this number of patterns on, all are forgotten before another one is kept. -/
def maxPatterns : Nat := 1024

variable {α : Type} (lib : Library α)

/-- The compiled expression for a pattern. What cannot be compiled is not kept. -/
def compiled (pattern : String) (cache : Cache α) : Option α × Cache α :=
  match cache[pattern]? with
  | some found => (some found, cache)
  | none => match lib.compile (source lib.escape pattern) with
    | none => (none, cache)
    | some made =>
      let room := if maxPatterns ≤ cache.size then ∅ else cache
      (some made, room.insert pattern made)

/-- Whether the text matches the pattern. A pattern that cannot be compiled matches nothing. -/
def isMatch (pattern text : String) (cache : Cache α) : Bool × Cache α :=
  match compiled lib pattern cache with
  | (some found, cache) => (lib.isMatch found text, cache)
  | (none, cache) => (false, cache)

/-- The cache after some patterns were matched against some texts. -/
def after (asked : List (String × String)) (cache : Cache α) : Cache α :=
  asked.foldl (fun cache (pattern, text) => (isMatch lib pattern text cache).2) cache

end TierCache.Glob
