import TierCache.Number.Decimal

/-!
JSON values and their text. A number is an integer or a float, and an object keeps its members in
the order given; text is written on one line without blanks.
-/
namespace TierCache

inductive Json
  | null
  | bool (b : Bool)
  | int (n : Int)
  | float (x : Binary64)
  | str (s : String)
  | arr (items : List Json)
  | obj (members : List (String × Json))
  deriving Inhabited

namespace Json

def nat (n : Nat) : Json := int n

/-- A missing value is written as null. -/
def opt {α : Type} (f : α → Json) : Option α → Json
  | some a => f a
  | none => null

/-- A hexadecimal digit in small letters. -/
def hexDigit (n : Nat) : Char := if n < 10 then Char.ofNat (48 + n) else Char.ofNat (87 + n)

/-- A character inside a quoted string. Quotes, backslashes and control characters are escaped; all
others stand for themselves. -/
def escape (c : Char) : List Char :=
  if c = '"' then ['\\', '"']
  else if c = '\\' then ['\\', '\\']
  else if c.toNat < 0x20 then
    match c.toNat with
    | 8 => ['\\', 'b']
    | 9 => ['\\', 't']
    | 10 => ['\\', 'n']
    | 12 => ['\\', 'f']
    | 13 => ['\\', 'r']
    | n => ['\\', 'u', '0', '0', hexDigit (n / 16), hexDigit (n % 16)]
  else [c]

/-- A string in quotes. -/
def quoted (s : String) : List Char := '"' :: (s.toList.flatMap escape ++ ['"'])

/-- A float keeps a mark that it is one: a point or an exponent. Positional notation reaches from
`0.00001` to below `10 ^ 16`. What is not finite has no JSON number and becomes null. -/
def floatChars (x : Binary64) : List Char :=
  if !x.isFinite then ['n', 'u', 'l', 'l']
  else
    let body :=
      if x.magnitude = 0 then ['0', '.', '0']
      else
        let d := Decimal.shortest x
        let point : Int := d.exponent + d.digitText.length
        if -5 < point ∧ point ≤ 16 then
          if 0 ≤ d.exponent then d.positional ++ ['.', '0'] else d.positional
        else d.scientific
    if x.isNegative then '-' :: body else body

mutual

/-- The text of a value. -/
def chars : Json → List Char
  | null => ['n', 'u', 'l', 'l']
  | bool true => ['t', 'r', 'u', 'e']
  | bool false => ['f', 'a', 'l', 's', 'e']
  | int n => (toString n).toList
  | float x => floatChars x
  | str s => quoted s
  | arr items => '[' :: itemChars true items
  | obj members => '{' :: memberChars true members

/-- The items from the first one or from the comma before the next one, to the closing bracket. -/
def itemChars : Bool → List Json → List Char
  | _, [] => [']']
  | true, v :: rest => chars v ++ itemChars false rest
  | false, v :: rest => ',' :: (chars v ++ itemChars false rest)

/-- The members from the first one or from the comma before the next one, to the closing brace. -/
def memberChars : Bool → List (String × Json) → List Char
  | _, [] => ['}']
  | true, (k, v) :: rest => quoted k ++ ':' :: (chars v ++ memberChars false rest)
  | false, (k, v) :: rest => ',' :: (quoted k ++ ':' :: (chars v ++ memberChars false rest))

end

/-- The text of a value, on one line. -/
def render (j : Json) : String := String.ofList j.chars

mutual

/-- Whether two values are the same, floats by their bits and members in order. -/
def same : Json → Json → Bool
  | null, null => true
  | bool a, bool b => a == b
  | int a, int b => a == b
  | float a, float b => a == b
  | str a, str b => a == b
  | arr a, arr b => sameItems a b
  | obj a, obj b => sameMembers a b
  | _, _ => false

def sameItems : List Json → List Json → Bool
  | [], [] => true
  | a :: as, b :: bs => same a b && sameItems as bs
  | _, _ => false

def sameMembers : List (String × Json) → List (String × Json) → Bool
  | [], [] => true
  | (k, a) :: as, (l, b) :: bs => k == l && same a b && sameMembers as bs
  | _, _ => false

end

mutual

theorem same_iff (a b : Json) : same a b = true ↔ a = b := by
  cases a <;> cases b <;> simp [same, sameItems_iff, sameMembers_iff]

theorem sameItems_iff (as bs : List Json) : sameItems as bs = true ↔ as = bs := by
  cases as <;> cases bs <;> simp [sameItems, same_iff, sameItems_iff]

theorem sameMembers_iff (as bs : List (String × Json)) : sameMembers as bs = true ↔ as = bs := by
  match as, bs with
  | [], [] => simp [sameMembers]
  | [], _ :: _ => simp [sameMembers]
  | _ :: _, [] => simp [sameMembers]
  | (k, a) :: as, (l, b) :: bs =>
    simp [sameMembers, same_iff a b, sameMembers_iff as bs]

end

instance : DecidableEq Json := fun a b =>
  if h : same a b = true then isTrue ((same_iff a b).1 h)
  else isFalse fun e => h ((same_iff a b).2 e)

end Json
end TierCache
