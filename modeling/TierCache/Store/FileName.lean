import TierCache.Text.Percent

/-!
The file names of region logs. Letters, digits, underscore and hyphen of ASCII stand for themselves
in a region's file name; every other byte of the name is written in percent encoding.
-/
namespace TierCache.FileName

/-- The last part of a log's file name. -/
def extension : String := "log"

def isSafe (b : UInt8) : Bool :=
  let n := b.toNat
  (48 ≤ n && n ≤ 57) || (65 ≤ n && n ≤ 90) || (97 ≤ n && n ≤ 122) || n == 95 || n == 45

/-- A region's name as the stem of a file name. -/
def encode (region : String) : String :=
  String.ofList ((Text.encode region).flatMap fun b =>
    if isSafe b then [Char.ofNat b.toNat] else '%' :: Text.hexByte b)

/-- Two characters as a byte in hexadecimal; a plus sign may stand in place of the first digit. -/
def hexPair? (a b : Char) : Option UInt8 :=
  match Text.hexDigit? b with
  | some low =>
    if a = '+' then some (UInt8.ofNat low)
    else (Text.hexDigit? a).map fun high => UInt8.ofNat (high * 16 + low)
  | none => none

/-- The bytes that a stem stands for. -/
def bytes? : List Char → Option (List UInt8)
  | [] => some []
  | '%' :: a :: b :: rest => match hexPair? a b with
    | some byte => (bytes? rest).map (byte :: ·)
    | none => none
  | c :: rest =>
    if c = '%' then none else (bytes? rest).map (Text.encode (String.singleton c) ++ ·)

/-- The region that a stem names. -/
def decode? (stem : String) : Option String := (bytes? stem.toList).bind Text.decode?

/-- The name of a region's log. -/
def ofRegion (region : String) : String := encode region ++ "." ++ extension

/-- A file name at its last dot: what stands before it and after it. A dot in front of everything is
part of the stem. -/
def split (name : String) : String × Option String :=
  let back := name.toList.reverse
  let after := back.takeWhile (· ≠ '.')
  match back.dropWhile (· ≠ '.') with
  | _ :: c :: before =>
    (String.ofList (c :: before).reverse, some (String.ofList after.reverse))
  | _ => (name, none)

/-- The region whose log a file name is. -/
def region? (name : String) : Option String :=
  match split name with
  | (stem, some e) => if e = extension then decode? stem else none
  | _ => none

/-- The name of the file that a log is rewritten to before it replaces the log. -/
def rewritten (name : String) : String := (split name).1 ++ ".compact"

end TierCache.FileName
