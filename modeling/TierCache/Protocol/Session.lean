import TierCache.Protocol.Execute
import TierCache.Protocol.Token

/-!
Sessions of clients. Between MULTI and EXEC the commands of a session are kept and not carried out;
EXEC carries them out one after another, DISCARD forgets them.
-/
namespace TierCache

structure Session where
  /-- The commands kept since MULTI, the oldest first. -/
  queue : Option (List (List String))
  /-- Whether the client asked to end the connection. -/
  closing : Bool
  deriving DecidableEq, Repr

namespace Session

def fresh : Session := ⟨none, false⟩

def inMulti (s : Session) : Bool := s.queue.isSome

variable {σ : Type} [Store σ]

/-- Carries out commands one after another. -/
def executeAll (i : Instance σ) (clock : Clock) : List (List String) → List Reply × Instance σ
  | [] => ([], i)
  | tokens :: rest =>
    let (reply, i) := i.execute clock tokens
    let (replies, i) := executeAll i clock rest
    (reply :: replies, i)

def multi (s : Session) : Reply × Session :=
  match s.queue with
  | some _ => (.error "MULTI calls can not be nested", s)
  | none => (.ok, { s with queue := some [] })

def exec (s : Session) (i : Instance σ) (clock : Clock) : Reply × Session × Instance σ :=
  match s.queue with
  | some queue =>
    let (replies, i) := executeAll i clock queue
    (.nested replies, { s with queue := none }, i)
  | none => (.error "EXEC without MULTI", s, i)

def discard (s : Session) : Reply × Session :=
  match s.queue with
  | some _ => (.ok, { s with queue := none })
  | none => (.error "DISCARD without MULTI", s)

/-- Carries out a command, or keeps it for EXEC. -/
def command (s : Session) (i : Instance σ) (clock : Clock) (tokens : List String) :
    Reply × Session × Instance σ :=
  match s.queue with
  | some queue => (.simple "QUEUED", { s with queue := some (queue ++ [tokens]) }, i)
  | none =>
    let (reply, i) := i.execute clock tokens
    (reply, s, i)

/-- Handles one line of a client. A blank line has no reply. -/
def handleLine (s : Session) (i : Instance σ) (clock : Clock) (line : String) :
    Option Reply × Session × Instance σ :=
  match Token.tokenize line with
  | .error e => (some (.ofError e), s, i)
  | .ok [] => (none, s, i)
  | .ok (first :: rest) =>
    match Text.upper first with
    | "MULTI" =>
      let (reply, s) := s.multi
      (some reply, s, i)
    | "EXEC" =>
      let (reply, s, i) := s.exec i clock
      (some reply, s, i)
    | "DISCARD" =>
      let (reply, s) := s.discard
      (some reply, s, i)
    | "QUIT" => (some .ok, { s with closing := true }, i)
    | _ =>
      let (reply, s, i) := s.command i clock (first :: rest)
      (some reply, s, i)

end Session
end TierCache
