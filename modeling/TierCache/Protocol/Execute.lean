import TierCache.Engine.Regions
import TierCache.Engine.Typed
import TierCache.Instance.Basic
import TierCache.Protocol.Command
import TierCache.Protocol.Reply

/-!
Commands carried out by an instance.
-/
namespace TierCache
namespace Instance

variable {σ : Type}

/-- The version that the cache tells of itself. -/
def version : String := "0.1.0"

def roleName (i : Instance σ) : String := if i.member.isPrimary then "primary" else "secondary"

/-- The reply to what an operation gave. -/
def replyTo {α : Type} (reply : α → Reply) : Except CacheError α → Reply
  | .ok a => reply a
  | .error e => .ofError e

/-- Runs an operation of the engine and makes its result a reply. -/
def answer {α : Type} (i : Instance σ) (now : Nat) (reply : α → Reply)
    (op : Engine σ → α × Engine σ) : Reply × Instance σ :=
  let (result, i) := i.run now op
  (reply result, i)

/-- The facts that an instance tells of itself, one in each line. -/
def facts (i : Instance σ) (regions : List String) (clock : Clock) : String :=
  let s := i.engine.snapshot
  String.intercalate "\r\n" [
    "version:" ++ version,
    "role:" ++ i.roleName,
    "instance_id:" ++ i.settings.instanceId,
    "regions:" ++ String.intercalate "," regions,
    "uptime_seconds:" ++ toString ((clock.steady - i.startedAt) / 1000),
    "max_memory_objects:" ++ toString s.capacity,
    "resident_entries:" ++ toString s.resident,
    "known_keys:" ++ toString s.known,
    "hits:" ++ toString s.stats.hits,
    "misses:" ++ toString s.stats.misses,
    "evictions:" ++ toString s.stats.evictions]

/-- The members of a range, each with its score if asked for. -/
def memberTexts (withScores : Bool) (ms : List ScoredMember) : List String :=
  if withScores then ms.flatMap fun m => [m.member, m.score.text] else ms.map (·.member)

/-- Carries out a command in a region. -/
def perform [Store σ] (i : Instance σ) (clock : Clock) (region : String) :
    Command → Reply × Instance σ
  | .ping none => (.simple "PONG", i)
  | .ping (some message) => (.text message, i)
  | .echo message => (.text message, i)
  | .set key text seconds =>
    i.answer clock.wall (replyTo fun _ => .ok) fun e =>
      e.set clock.wall region key text (seconds.map (Engine.secondsAfter clock.wall))
  | .get key => i.answer clock.wall .bulk fun e => e.get clock.wall region key
  | .incrBy key delta =>
    i.answer clock.wall (replyTo fun n => .integer n.toInt) fun e =>
      e.incrBy clock.wall region key delta
  | .append key suffix =>
    i.answer clock.wall (replyTo .count) fun e => e.append clock.wall region key suffix
  | .delete keys => i.answer clock.wall .count fun e => e.delete region keys
  | .countLive keys => i.answer clock.wall .count fun e => e.exists? clock.wall region keys
  | .expire key seconds =>
    i.answer clock.wall (replyTo .ofBool) fun e => e.expire clock.wall region key seconds.toInt
  | .ttl key => i.answer clock.wall .integer fun e => e.ttl clock.wall region key
  | .persist key =>
    i.answer clock.wall (replyTo .ofBool) fun e => e.persist clock.wall region key
  | .keys pattern => i.answer clock.wall .array fun e => e.keys clock.wall region pattern
  | .typeOf key =>
    i.answer clock.wall (fun t => .simple ((t.map DataType.name).getD "none")) fun e =>
      e.typeOf clock.wall region key
  | .scan cursor pattern count =>
    i.answer clock.wall (fun page => .nested [.text (toString page.cursor), .array page.keys])
      fun e => e.scan clock.wall region cursor pattern count
  | .hset key pairs =>
    i.answer clock.wall (replyTo .count) fun e => e.hset clock.wall region key pairs
  | .hget key field =>
    i.answer clock.wall (replyTo .bulk) fun e => e.hget clock.wall region key field
  | .hgetAll key =>
    i.answer clock.wall (replyTo fun rows => .array (rows.flatMap fun (f, v) => [f, v])) fun e =>
      e.hgetAll clock.wall region key
  | .hdel key fields =>
    i.answer clock.wall (replyTo .count) fun e => e.hdel clock.wall region key fields
  | .pushHead key items =>
    i.answer clock.wall (replyTo .count) fun e => e.pushHead clock.wall region key items
  | .pushTail key items =>
    i.answer clock.wall (replyTo .count) fun e => e.pushTail clock.wall region key items
  | .popHead key => i.answer clock.wall (replyTo .bulk) fun e => e.popHead clock.wall region key
  | .popTail key => i.answer clock.wall (replyTo .bulk) fun e => e.popTail clock.wall region key
  | .listRange key start stop =>
    i.answer clock.wall (replyTo .array) fun e => e.listRange clock.wall region key start stop
  | .listLength key =>
    i.answer clock.wall (replyTo .count) fun e => e.listLength clock.wall region key
  | .setAdd key members =>
    i.answer clock.wall (replyTo .count) fun e => e.setAdd clock.wall region key members
  | .setMembers key =>
    i.answer clock.wall (replyTo .array) fun e => e.setMembers clock.wall region key
  | .setRemove key members =>
    i.answer clock.wall (replyTo .count) fun e => e.setRemove clock.wall region key members
  | .setContains key member =>
    i.answer clock.wall (replyTo .ofBool) fun e => e.setContains clock.wall region key member
  | .sortedAdd key members =>
    i.answer clock.wall (replyTo .count) fun e => e.sortedAdd clock.wall region key members
  | .sortedRange key start stop withScores =>
    i.answer clock.wall (replyTo fun ms => .array (memberTexts withScores ms)) fun e =>
      e.sortedRange clock.wall region key start stop
  | .sortedRemove key members =>
    i.answer clock.wall (replyTo .count) fun e => e.sortedRemove clock.wall region key members
  | .sortedScore key member =>
    i.answer clock.wall (replyTo fun score => .bulk (score.map Binary64.text)) fun e =>
      e.sortedScore clock.wall region key member
  | .publish channel message =>
    let (count, notifier) := i.notifier.publish channel message
    (.count count, { i with notifier })
  | .deleteRegion name =>
    i.answer clock.wall (replyTo fun _ => .ok) fun e => e.deleteRegion (name.getD region)
  | .role => (.array [i.roleName, i.settings.instanceId], i)
  | .info =>
    let (regions, i) := i.run clock.wall Engine.regionNames
    (.text (i.facts regions clock), i)

/-- Carries out the command that tokens make up; what is wrong with it is the reply. -/
def execute [Store σ] (i : Instance σ) (clock : Clock) (tokens : List String) :
    Reply × Instance σ :=
  match Command.ofTokens tokens with
  | .error e => (.ofError e, i)
  | .ok (region, c) => i.perform clock (region.getD i.engine.defaultRegion) c

end Instance
end TierCache
