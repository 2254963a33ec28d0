/-!
Lines of bytes, cut out of a stream that arrives in pieces. A line ends with a line feed, before
which one carriage return belongs to the end; the last line of a stream may lack its end.
-/
namespace TierCache

/-- The outcome of reading a line of limited length. -/
inductive LineRead
  | line (bytes : List UInt8)
  | ended
  | tooLong
  deriving DecidableEq, Repr

namespace LineRead

def lineFeed : UInt8 := 10

def carriageReturn : UInt8 := 13

/-- A line without the carriage return at its end. -/
def dropReturn (bytes : List UInt8) : List UInt8 :=
  if bytes.getLast? = some carriageReturn then bytes.dropLast else bytes

/-- Reads a line of at most `max` bytes, its end not counted, with the bytes in `held` already read.
Gives the pieces that are left. The end of the stream shows as an empty piece or as no piece. -/
def next (max : Nat) (held : List UInt8) : List (List UInt8) → LineRead × List (List UInt8)
  | [] => (if held = [] then .ended else .line held, [])
  | [] :: pieces => (if held = [] then .ended else .line held, [] :: pieces)
  | piece :: pieces =>
    let before := piece.takeWhile (· ≠ lineFeed)
    match piece.dropWhile (· ≠ lineFeed) with
    | [] =>
      -- one byte more than the limit, for it may be a carriage return before the line feed
      if max + 1 < held.length + piece.length then (.tooLong, piece :: pieces)
      else next max (held ++ piece) pieces
    | _ :: after =>
      let last := if before = [] then held.getLast? else before.getLast?
      let hasReturn := if last = some carriageReturn then 1 else 0
      if max < held.length + before.length - hasReturn then (.tooLong, piece :: pieces)
      else (.line (dropReturn (held ++ before)), if after = [] then pieces else after :: pieces)

end LineRead
end TierCache
