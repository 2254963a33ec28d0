import TierCache.Json.Read
import TierCache.Replication.Log
import TierCache.Text.Lines
import TierCache.Text.Utf8

/-!
Records on their way between instances: one line of JSON for each.
-/
namespace TierCache.Replication
open Json

/-- A record with its topic. -/
structure Frame where
  topic : String
  record : Record
  deriving DecidableEq, Repr

namespace Frame

def toJson (f : Frame) : Json :=
  .obj [("topic", .str f.topic), ("key", .str f.record.key), ("payload", .str f.record.payload)]

/-- The line that is sent for a frame. -/
def line (f : Frame) : String := f.toJson.render ++ "\n"

def ofRaw (v : Raw) : Except Fault Frame := do
  match ← v.record ["topic", "key", "payload"] 3 with
  | [topic, key, payload] =>
    return ⟨← Raw.needed Raw.string topic,
      ← Raw.needed Raw.string key, ← Raw.needed Raw.string payload⟩
  | _ => .error .mismatched

/-- The frame on a line; none when it cannot be read. -/
def ofLine? (line : List Char) : Option Frame := (ofRaw (Raw.ofChars line)).toOption

/-- The bytes of each line, without the line feed at its end. -/
def splitBytes : List UInt8 → List (List UInt8)
  | [] => []
  | b :: bs =>
    if b = 10 then [] :: splitBytes bs
    else match splitBytes bs with
      | [] => [[b]]
      | line :: lines => (b :: line) :: lines

/-- The frames that a connection carries. Blank and unreadable lines are passed over; a line that is
not UTF-8 ends the connection. -/
def ofLines : List (List UInt8) → List Frame
  | [] => []
  | line :: lines => match Text.decode? line with
    | none => []
    | some text =>
      let chars := Text.dropReturn text.toList
      if Text.isBlankLine chars then ofLines lines
      else match ofLine? chars with
        | some f => f :: ofLines lines
        | none => ofLines lines

/-- The frames in the bytes received from a peer. -/
def ofBytes (bytes : List UInt8) : List Frame := ofLines (splitBytes bytes)

/-- Gives a frame from a peer to the local subscribers of its topic. -/
def deliver (f : Frame) (l : Log) : Log := l.publish f.topic f.record

end Frame
end TierCache.Replication
