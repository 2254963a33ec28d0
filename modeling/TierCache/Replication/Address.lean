import TierCache.Text.Blank
import TierCache.Text.Integer

/-!
Addresses on which an instance can listen for others: a host of its own and a port.
-/
namespace TierCache.Replication

/-- The four numbers of an address of version 4; a number has no leading zero. -/
def hostNumbers? (host : List Char) : Option (List Nat) :=
  let parts := Text.splitOn '.' host
  if parts.length ≠ 4 then none
  else parts.mapM fun part => match Text.digits? part with
    | some n =>
      if n ≤ 255 ∧ (part.length = 1 ∨ part.head? ≠ some '0') then some n else none
    | none => none

/-- Whether a host stands for the machine itself. -/
def isOwnHost (host : List Char) : Bool :=
  match hostNumbers? host with
  | some [0, 0, 0, 0] => true
  | some (127 :: _) => true
  | some _ => false
  | none => ["localhost", "[::]", "[::1]"].contains (String.ofList host)

/-- Whether an instance can listen on an address: its host is the machine itself, and after the last
colon stands a port. -/
def canListen (address : String) : Bool :=
  let cs := address.toList
  let port := (cs.reverse.takeWhile (· ≠ ':')).reverse
  let host := cs.take (cs.length - port.length - 1)
  cs.contains ':' && isOwnHost host && match Text.digits? port with
    | some n => n ≤ 65535
    | none => false

end TierCache.Replication
