import TierCache.Protocol.Line
import TierCache.Protocol.Session

/-!
One connection: the lines of a client in, the replies out. It ends with the client's side, after a
line that is too long, or when the client asks for it.
-/
namespace TierCache.Connection

variable {σ : Type} [Store σ]

/-- The greatest length of a line unless told otherwise. -/
def defaultMaxLine : Nat := 1024 * 1024

/-- The reply to a line that is too long. -/
def tooLong : Reply := .error "line too long"

/-- The texts sent for the pieces of a stream. The fuel bounds the number of lines. -/
def serveWithin (maxLine : Nat) (clock : Clock) :
    Nat → Session → Instance σ → List (List UInt8) → List String × Instance σ
  | 0, _, i, _ => ([], i)
  | fuel + 1, s, i, pieces => match LineRead.next maxLine [] pieces with
    | (.ended, _) => ([], i)
    | (.tooLong, _) => ([tooLong.encode], i)
    | (.line bytes, pieces) =>
      let (reply, s, i) := s.handleLine i clock (Text.decodeLossy bytes)
      let sent := (reply.map Reply.encode).toList
      if s.closing then (sent, i)
      else
        let (more, i) := serveWithin maxLine clock fuel s i pieces
        (sent ++ more, i)

/-- Serves a connection whose client sends a stream in pieces; gives all that it receives. -/
def serve (maxLine : Nat) (clock : Clock) (i : Instance σ) (pieces : List (List UInt8)) :
    String × Instance σ :=
  let fuel := pieces.flatten.length + 2
  let (sent, i) := serveWithin maxLine clock fuel .fresh i pieces
  (String.join sent, i)

end TierCache.Connection
