/-!
UTF-8 read from bytes of unknown origin. `decodeLossy` accepts every byte sequence: the longest
start of a character that the bytes do not complete becomes one replacement character.
-/
namespace TierCache.Text

/-- What a lead byte promises: how many bytes follow, the range of the first of them, and the bits
the lead contributes. -/
structure Lead where
  tail : Nat
  low : Nat
  high : Nat
  bits : Nat
  deriving DecidableEq, Repr

/-- The lead bytes of characters of two to four bytes. -/
def lead? (b : Nat) : Option Lead :=
  if 0xC2 ≤ b ∧ b ≤ 0xDF then some ⟨1, 0x80, 0xBF, b - 0xC0⟩
  else if b = 0xE0 then some ⟨2, 0xA0, 0xBF, 0⟩
  else if b = 0xED then some ⟨2, 0x80, 0x9F, 0xD⟩
  else if 0xE1 ≤ b ∧ b ≤ 0xEF then some ⟨2, 0x80, 0xBF, b - 0xE0⟩
  else if b = 0xF0 then some ⟨3, 0x90, 0xBF, 0⟩
  else if 0xF1 ≤ b ∧ b ≤ 0xF3 then some ⟨3, 0x80, 0xBF, b - 0xF0⟩
  else if b = 0xF4 then some ⟨3, 0x80, 0x8F, 4⟩
  else none

/-- The replacement character. -/
def replacement : Char := Char.ofNat 0xFFFD

/-- Reads the bytes after a lead: `owed` of them are missing, the next one must lie in
`low..high`, and `bits` holds what was read so far. The text starts anew where they fail. -/
def decodeFrom : (owed low high bits : Nat) → List UInt8 → List Char
  | 0, _, _, _, [] => []
  | _ + 1, _, _, _, [] => [replacement]
  | owed + 1, low, high, bits, b :: bs =>
    let n := b.toNat
    if low ≤ n ∧ n ≤ high then
      let bits := bits * 64 + (n - 0x80)
      if owed = 0 then Char.ofNat bits :: decodeFrom 0 0 0 0 bs
      else decodeFrom owed 0x80 0xBF bits bs
    else if n < 0x80 then replacement :: Char.ofNat n :: decodeFrom 0 0 0 0 bs
    else match lead? n with
      | some l => replacement :: decodeFrom l.tail l.low l.high l.bits bs
      | none => replacement :: replacement :: decodeFrom 0 0 0 0 bs
  | 0, _, _, _, b :: bs =>
    let n := b.toNat
    if n < 0x80 then Char.ofNat n :: decodeFrom 0 0 0 0 bs
    else match lead? n with
      | some l => decodeFrom l.tail l.low l.high l.bits bs
      | none => replacement :: decodeFrom 0 0 0 0 bs

/-- The text of the bytes, with a replacement character for each part that is not UTF-8. -/
def decodeLossy (bytes : List UInt8) : String := String.ofList (decodeFrom 0 0 0 0 bytes)

/-- The text of the bytes, if they are UTF-8 throughout. -/
def decode? (bytes : List UInt8) : Option String := String.fromUTF8? (ByteArray.mk bytes.toArray)

/-- The bytes of the text. -/
def encode (s : String) : List UInt8 := s.toUTF8.data.toList

end TierCache.Text
