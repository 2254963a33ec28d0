import TierCache.Error

/-!
Replies and their encoding. Each kind has its own first character, every part ends with a carriage
return and a line feed, and a bulk text is preceded by its length in bytes.
-/
namespace TierCache

inductive Reply
  | simple (text : String)
  | error (message : String)
  | integer (n : Int)
  /-- A text of any content, or nothing. -/
  | bulk (text : Option String)
  /-- Texts of any content. -/
  | array (items : List String)
  /-- The replies of several commands. -/
  | nested (replies : List Reply)
  deriving Inhabited

namespace Reply

def ok : Reply := simple "OK"

def text (s : String) : Reply := bulk (some s)

def nil : Reply := bulk none

/-- The greatest integer a reply can hold. -/
def maxInteger : Nat := 0x7FFFFFFFFFFFFFFF

/-- A count, held at the greatest integer. -/
def count (n : Nat) : Reply := integer (min n maxInteger : Nat)

def ofBool (b : Bool) : Reply := integer (if b then 1 else 0)

def ofError (e : CacheError) : Reply := error e.message

/-- The end of a line. -/
def lineEnd : List Char := ['\r', '\n']

/-- A text within one line: its own line breaks become blanks. -/
def oneLine (s : String) : List Char :=
  s.toList.map fun c => if c = '\r' ∨ c = '\n' then ' ' else c

def bulkChars (s : String) : List Char :=
  '$' :: (toString s.utf8ByteSize).toList ++ lineEnd ++ s.toList ++ lineEnd

/-- The head of a list of replies. -/
def header (n : Nat) : List Char := '*' :: (toString n).toList ++ lineEnd

mutual

def chars : Reply → List Char
  | simple s => '+' :: oneLine s ++ lineEnd
  | error s => '-' :: 'E' :: 'R' :: 'R' :: ' ' :: oneLine s ++ lineEnd
  | integer n => ':' :: (toString n).toList ++ lineEnd
  | bulk none => ['$', '-', '1', '\r', '\n']
  | bulk (some s) => bulkChars s
  | array items => header items.length ++ items.flatMap bulkChars
  | nested replies => header replies.length ++ allChars replies

def allChars : List Reply → List Char
  | [] => []
  | r :: rest => chars r ++ allChars rest

end

/-- The text sent for a reply. -/
def encode (r : Reply) : String := String.ofList r.chars

end Reply
end TierCache
