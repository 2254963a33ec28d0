import TierCache.Json.Basic
import TierCache.Text.Percent

/-!
JSON as it was written. Reading never fails: where the text stops being JSON the tree ends in
`broken`, so a reader of the tree meets a wrong shape or the broken place, whichever comes first.
Members keep their order and their repetitions, and a number keeps its decimal.
-/
namespace TierCache

/-- A number as written: its digits without the point, the power of ten, and whether it had neither
point nor exponent. -/
structure Numeral where
  negative : Bool
  coefficient : Nat
  exponent : Int
  integral : Bool
  deriving DecidableEq, Repr

namespace Json

/-- A string is `none` when one of its escapes is half of a surrogate pair, which is not a
character. -/
inductive Raw
  | null
  | bool (b : Bool)
  | num (n : Numeral)
  | str (s : Option String)
  | arr (items : List Raw)
  | obj (members : List (Option String × Raw))
  | broken
  deriving Inhabited

/-- The blanks of JSON. -/
def isSpace (c : Char) : Bool := c = ' ' || c = '\t' || c = '\n' || c = '\r'

def skipSpace (cs : List Char) : List Char := cs.dropWhile isSpace

/-- A character of a string, or the sixteen bits of an escape. -/
inductive Unit16
  | char (c : Char)
  | code (n : Nat)

/-- The value of four hexadecimal digits. -/
def hex4? (a b c d : Char) : Option Nat :=
  match Text.hexDigit? a, Text.hexDigit? b, Text.hexDigit? c, Text.hexDigit? d with
  | some a, some b, some c, some d => some (((a * 16 + b) * 16 + c) * 16 + d)
  | _, _, _, _ => none

/-- The character that a backslash and this letter stand for. -/
def shortEscape? (c : Char) : Option Char :=
  if c = '"' || c = '\\' || c = '/' then some c
  else if c = 'b' then some (Char.ofNat 8)
  else if c = 'f' then some (Char.ofNat 12)
  else if c = 'n' then some '\n'
  else if c = 'r' then some '\r'
  else if c = 't' then some '\t'
  else none

/-- A string from after its opening quote, and what follows its closing one. -/
def scanString : List Char → Option (List Unit16 × List Char)
  | [] => none
  | '"' :: rest => some ([], rest)
  | '\\' :: 'u' :: a :: b :: c :: d :: rest =>
    match hex4? a b c d with
    | some n => (scanString rest).map fun (us, r) => (.code n :: us, r)
    | none => none
  | '\\' :: e :: rest =>
    match shortEscape? e with
    | some c => (scanString rest).map fun (us, r) => (.char c :: us, r)
    | none => none
  | c :: rest =>
    if c.toNat < 0x20 ∨ c = '\\' then none
    else (scanString rest).map fun (us, r) => (.char c :: us, r)

/-- The characters of a string; two escapes that form a surrogate pair are one character. -/
def joinUnits : List Unit16 → Option (List Char)
  | [] => some []
  | .char c :: us => (joinUnits us).map (c :: ·)
  | .code n :: .code m :: us =>
    if 0xD800 ≤ n ∧ n < 0xDC00 then
      if 0xDC00 ≤ m ∧ m < 0xE000 then
        (joinUnits us).map (Char.ofNat (0x10000 + (n - 0xD800) * 0x400 + (m - 0xDC00)) :: ·)
      else none
    else if 0xDC00 ≤ n ∧ n < 0xE000 then none
    else (joinUnits (.code m :: us)).map (Char.ofNat n :: ·)
  | .code n :: us =>
    if 0xD800 ≤ n ∧ n < 0xE000 then none else (joinUnits us).map (Char.ofNat n :: ·)

/-- The decimal digits at the front: their value after `acc`, how many they are, and the rest. -/
def scanDigits (acc count : Nat) : List Char → Nat × Nat × List Char
  | [] => (acc, count, [])
  | c :: cs => match Text.digit? c with
    | some d => scanDigits (acc * 10 + d) (count + 1) cs
    | none => (acc, count, c :: cs)

/-- The exponent part after its letter. -/
def scanExponent (n : Numeral) (negative : Bool) (cs : List Char) : Option (Numeral × List Char) :=
  match scanDigits 0 0 cs with
  | (_, 0, _) => none
  | (e, _, rest) =>
    some ({ n with exponent := n.exponent + (if negative then -(e : Int) else e),
                   integral := false }, rest)

/-- An exponent part, if there is one. -/
def scanPower (n : Numeral) : List Char → Option (Numeral × List Char)
  | c :: cs =>
    if c = 'e' || c = 'E' then
      match cs with
      | '-' :: r => scanExponent n true r
      | '+' :: r => scanExponent n false r
      | r => scanExponent n false r
    else some (n, c :: cs)
  | [] => some (n, [])

/-- A fraction, if there is one, and then the exponent part. -/
def scanFraction (n : Numeral) : List Char → Option (Numeral × List Char)
  | '.' :: cs => match scanDigits n.coefficient 0 cs with
    | (_, 0, _) => none
    | (m, places, rest) =>
      scanPower { n with coefficient := m, exponent := -(places : Int), integral := false } rest
  | cs => scanPower n cs

/-- A number from after its sign. No digit may follow a leading zero. -/
def scanNumber (negative : Bool) : List Char → Option (Numeral × List Char)
  | '0' :: c :: cs =>
    if (Text.digit? c).isSome then none else scanFraction ⟨negative, 0, 0, true⟩ (c :: cs)
  | cs => match scanDigits 0 0 cs with
    | (_, 0, _) => none
    | (n, _, rest) => scanFraction ⟨negative, n, 0, true⟩ rest

mutual

/-- A value and what follows it; nothing follows a broken one. The fuel bounds the nesting and the
number of items, so the length of the text always suffices. -/
def readValue : Nat → List Char → Raw × Option (List Char)
  | 0, _ => (.broken, none)
  | fuel + 1, cs => match skipSpace cs with
    | 'n' :: 'u' :: 'l' :: 'l' :: rest => (.null, some rest)
    | 't' :: 'r' :: 'u' :: 'e' :: rest => (.bool true, some rest)
    | 'f' :: 'a' :: 'l' :: 's' :: 'e' :: rest => (.bool false, some rest)
    | '"' :: rest => match scanString rest with
      | some (us, r) => (.str ((joinUnits us).map String.ofList), some r)
      | none => (.broken, none)
    | '[' :: rest => match skipSpace rest with
      | ']' :: r => (.arr [], some r)
      | r => match readItems fuel r with
        | (items, r) => (.arr items, r)
    | '{' :: rest => match skipSpace rest with
      | '}' :: r => (.obj [], some r)
      | r => match readMembers fuel r with
        | (members, r) => (.obj members, r)
    | '-' :: rest => match scanNumber true rest with
      | some (n, r) => (.num n, some r)
      | none => (.broken, none)
    | rest => match scanNumber false rest with
      | some (n, r) => (.num n, some r)
      | none => (.broken, none)

/-- The items from here to the closing bracket. -/
def readItems : Nat → List Char → List Raw × Option (List Char)
  | 0, _ => ([.broken], none)
  | fuel + 1, cs => match readValue fuel cs with
    | (v, none) => ([v], none)
    | (v, some rest) => match skipSpace rest with
      | ']' :: r => ([v], some r)
      | ',' :: r => match readItems fuel r with
        | (vs, r) => (v :: vs, r)
      | _ => ([v, .broken], none)

/-- The members from here to the closing brace. -/
def readMembers : Nat → List Char → List (Option String × Raw) × Option (List Char)
  | 0, _ => ([(none, .broken)], none)
  | fuel + 1, cs => match skipSpace cs with
    | '"' :: rest => match scanString rest with
      | none => ([(none, .broken)], none)
      | some (us, rest) =>
        let key := (joinUnits us).map String.ofList
        match skipSpace rest with
        | ':' :: rest => match readValue fuel rest with
          | (v, none) => ([(key, v)], none)
          | (v, some rest) => match skipSpace rest with
            | '}' :: r => ([(key, v)], some r)
            | ',' :: r => match readMembers fuel r with
              | (ms, r) => ((key, v) :: ms, r)
            | _ => ([(key, v), (none, .broken)], none)
        | _ => ([(key, .broken)], none)
    | _ => ([(none, .broken)], none)

end

/-- The first value of the text and what follows it. -/
def Raw.first (cs : List Char) : Raw × Option (List Char) := readValue (2 * cs.length + 2) cs

/-- The value that the whole text is, broken if something other than blanks follows. -/
def Raw.ofChars (cs : List Char) : Raw :=
  match Raw.first cs with
  | (v, some rest) => if skipSpace rest = [] then v else .broken
  | (v, none) => v

def Raw.ofText (s : String) : Raw := Raw.ofChars s.toList

/-- The integer or float that a numeral stands for. An integer beyond 64 bits is a float, and so is
minus zero; a float beyond the finite ones is none. -/
def ofNumeral? (n : Numeral) : Option Json :=
  let float := Binary64.ofDecimal n.negative n.coefficient n.exponent
  if n.integral ∧ !n.negative ∧ n.coefficient ≤ Text.maxUnsigned then some (.int n.coefficient)
  else if n.integral ∧ n.negative ∧ 0 < n.coefficient ∧ n.coefficient ≤ Text.signedLimit then
    some (.int (-(n.coefficient : Int)))
  else if float.isFinite then some (.float float)
  else none

/-- Adds a member in key order; a later one replaces an earlier one of the same key. -/
def insertMember (k : String) (v : Json) : List (String × Json) → List (String × Json)
  | [] => [(k, v)]
  | (l, w) :: rest =>
    if k < l then (k, v) :: (l, w) :: rest
    else if k = l then (k, v) :: rest
    else (l, w) :: insertMember k v rest

/-- Members in key order; of one key the last one stays. -/
def byKey (members : List (String × Json)) : List (String × Json) :=
  members.foldl (fun acc (k, v) => insertMember k v acc) []

mutual

/-- The value as it is held apart from its text: the members of each object are in key order, and a
float that is not finite is null. -/
def sorted : Json → Json
  | .float x => if x.isFinite then .float x else .null
  | .arr items => .arr (sortedItems items)
  | .obj members => .obj (byKey (sortedMembers members))
  | j => j

def sortedItems : List Json → List Json
  | [] => []
  | v :: rest => sorted v :: sortedItems rest

def sortedMembers : List (String × Json) → List (String × Json)
  | [] => []
  | (k, v) :: rest => (k, sorted v) :: sortedMembers rest

end

namespace Raw

/-- How deep a text may be nested. -/
def maxDepth : Nat := 127

mutual

/-- Whether the text of the value did not break off. -/
def complete : Raw → Bool
  | .broken => false
  | .arr items => completeItems items
  | .obj members => completeMembers members
  | _ => true

def completeItems : List Raw → Bool
  | [] => true
  | v :: rest => complete v && completeItems rest

def completeMembers : List (Option String × Raw) → Bool
  | [] => true
  | (_, v) :: rest => complete v && completeMembers rest

end

mutual

/-- The value that was written, if it nests at most `room` deep, all its numbers are in range and
all its strings are text. An object's members are put in key order. -/
def value? : (room : Nat) → Raw → Option Json
  | _, .null => some .null
  | _, .bool b => some (.bool b)
  | _, .num n => ofNumeral? n
  | _, .str s => s.map .str
  | 0, .arr _ => none
  | room + 1, .arr items => (items? room items).map .arr
  | 0, .obj _ => none
  | room + 1, .obj members => (pairs? room members).map fun ps => .obj (byKey ps)
  | _, .broken => none

def items? : (room : Nat) → List Raw → Option (List Json)
  | _, [] => some []
  | room, v :: rest => match value? room v, items? room rest with
    | some v, some vs => some (v :: vs)
    | _, _ => none

def pairs? : (room : Nat) → List (Option String × Raw) → Option (List (String × Json))
  | _, [] => some []
  | room, (k, v) :: rest => match k, value? room v, pairs? room rest with
    | some k, some v, some ps => some ((k, v) :: ps)
    | _, _, _ => none

end

end Raw

mutual

/-- A value as it would be read from its text: floats by their own decimals. -/
def raw : Json → Raw
  | .null => .null
  | .bool b => .bool b
  | .int n => .num ⟨n < 0, n.natAbs, 0, true⟩
  | .float x =>
    if !x.isFinite then .null
    else if x.magnitude = 0 then .num ⟨x.isNegative, 0, -1, false⟩
    else
      let d := Decimal.shortest x
      .num ⟨x.isNegative, d.digits, d.exponent, false⟩
  | .str s => .str (some s)
  | .arr items => .arr (rawItems items)
  | .obj members => .obj (rawMembers members)

def rawItems : List Json → List Raw
  | [] => []
  | v :: rest => raw v :: rawItems rest

def rawMembers : List (String × Json) → List (Option String × Raw)
  | [] => []
  | (k, v) :: rest => (some k, raw v) :: rawMembers rest

end

end Json
end TierCache
