import TierCache.Cluster.Basic

/-!
The tasks in the background. A periodic task makes up for every period that passed; records on the
log reach the instances after the tasks that were due.
-/
namespace TierCache
open Replication

namespace Cluster

variable {σ : Type} [Store σ]

/-! ### Timers -/

/-- A heartbeat, then a look after the primary. -/
def beatOnce (c : Cluster σ) (k : Nat) : Cluster σ :=
  c.update k fun clock i => ((i.beat clock.wall).checkFailover clock.wall clock.wall).2

def forgetOnce (c : Cluster σ) (k : Nat) : Cluster σ :=
  c.update k fun clock i => i.forgetPeers clock.wall

/-- The number of times that a period task has to run which was due at `due`. -/
def missed (due period now : Nat) : Nat := (now - due) / period + 1

/-- Runs the task of a timer that is due, and begins its next wait. -/
def runTimer (c : Cluster σ) (t : Timer) : Cluster σ :=
  let now := c.clock.steady
  match t.task with
  | .beat period =>
    let n := missed t.due period now
    (Nat.repeat (·.beatOnce t.owner) n c).arm t.owner (t.due + n * period) (.beat period)
  | .forget period =>
    let n := missed t.due period now
    (c.forgetOnce t.owner).arm t.owner (t.due + n * period) (.forget period)
  | .startup => c.update t.owner fun clock i => (i.checkStartup clock.wall clock.wall).2
  | .sweep pause =>
    (c.update t.owner fun clock i => (i.run clock.wall (·.sweep clock.wall)).2).arm t.owner
      (now + pause) (.sweep pause)

/-- Runs the timers that are due. -/
def runDue (c : Cluster σ) : Cluster σ :=
  let due := (c.timers.filter fun t => t.due ≤ c.clock.steady).mergeSort Timer.le
  due.foldl runTimer { c with timers := c.timers.filter fun t => c.clock.steady < t.due }

/-! ### Records on the log -/

def followRecord (clock : Clock) (i : Instance σ) (r : Record) : Instance σ :=
  i.follow clock.wall r.payload

def hearRecord (clock : Clock) (i : Instance σ) (r : Record) : Instance σ :=
  i.hear clock.wall r.payload

/-- Gives an instance the records that wait for it: events first, then heartbeats. -/
def deliver (c : Cluster σ) (f : Follower) : Cluster σ :=
  let (events, log) := c.log.drain f.events
  let (beats, log) := log.drain f.beats
  { c with log }.update f.owner fun clock i =>
    let i := (Delivery.messages events).foldl (followRecord clock) i
    (Delivery.messages beats).foldl (hearRecord clock) i

/-- Whether a record waits for an instance. -/
def hasWaiting (c : Cluster σ) : Bool :=
  c.followers.any fun f => c.log.hasWaiting f.events || c.log.hasWaiting f.beats

/-- Delivers until nothing waits. The fuel bounds the number of rounds. -/
def deliverWithin : Nat → Cluster σ → Cluster σ
  | 0, c => c
  | fuel + 1, c => if c.hasWaiting then deliverWithin fuel (c.followers.foldl deliver c) else c

/-- Delivers until nothing waits. A round leaves something only where an instance became primary,
and each does so once. -/
def deliverAll (c : Cluster σ) : Cluster σ := deliverWithin (c.instances.size + 2) c

/-- Lets the background run until nothing is left to do. -/
def settle (c : Cluster σ) : Cluster σ := c.runDue.deliverAll

/-- Time passes, and the background runs. -/
def advance (c : Cluster σ) (ms : Nat) : Cluster σ :=
  { c with clock := c.clock.advance ms }.settle

/-- Time passes in jumps of one length and a last one of what is left, with the background running
after each. The fuel bounds the number of jumps. -/
def advanceWithin : Nat → Cluster σ → (ms jump : Nat) → Cluster σ
  | 0, c, ms, _ => c.advance ms
  | fuel + 1, c, ms, jump =>
    if jump = 0 ∨ ms ≤ jump then c.advance ms
    else advanceWithin fuel (c.advance jump) (ms - jump) jump

/-- Time passes in jumps, or in one jump when their length is zero. -/
def advanceBy (c : Cluster σ) (ms jump : Nat) : Cluster σ := advanceWithin ms c ms jump

/-! ### Starting and stopping -/

/-- The least period of the task that forgets instances. -/
def minForgetPeriod : Nat := 100

/-- Subscribes an instance to the topics of its cluster. -/
def subscribe (c : Cluster σ) (k : Nat) (s : Settings) : Cluster σ :=
  let (events, log) := c.log.subscribe s.replicationTopic
  let (beats, log) := log.subscribe s.healthTopic
  { c with log, followers := c.followers ++ [⟨k, events, beats⟩] }

/-- Starts to publish heartbeats; without a period there are none. -/
def startBeats (c : Cluster σ) (k period : Nat) : Cluster σ :=
  if period = 0 then c
  else (c.beatOnce k).arm k (c.clock.steady + period) (.beat period)

/-- Starts to forget instances. -/
def startForgetting (c : Cluster σ) (k period : Nat) : Cluster σ :=
  (c.forgetOnce k).arm k (c.clock.steady + period) (.forget period)

/-- Starts the tasks by which an instance takes part in the cluster, and counts them. An instance
outside a cluster has none. -/
def startTasks (c : Cluster σ) (k : Nat) : Nat × Cluster σ :=
  match c.instances[k]? with
  | none => (0, c)
  | some i =>
    let s := i.settings
    if s.enabled then
      let c := (c.subscribe k s).startBeats k s.heartbeatInterval
      let c := c.startForgetting k (max s.failoverTimeout minForgetPeriod)
      if !i.member.isPrimary && s.autoPromote then
        (5, c.arm k (c.clock.steady + s.startupWait) .startup)
      else (4, c)
    else (0, c)

/-- Starts to sweep expired keys every so many seconds, one at least. -/
def startSweeping (c : Cluster σ) (k seconds : Nat) : Cluster σ :=
  let pause := max seconds 1 * 1000
  c.arm k (c.clock.steady + pause) (.sweep pause)

/-- Stops the tasks of an instance. -/
def stopTasks (c : Cluster σ) (k : Nat) : Cluster σ :=
  let gone := c.followers.filter (·.owner = k)
  { c with
    timers := c.timers.filter (·.owner ≠ k)
    followers := c.followers.filter (·.owner ≠ k)
    log := gone.foldl (fun log f => (log.unsubscribe f.events).unsubscribe f.beats) c.log }

end Cluster
end TierCache
