import TierCache.Engine.Regions
import TierCache.Instance.Basic

/-!
An instance in the cluster: it applies the events of a primary, and exchanges heartbeats.
-/
namespace TierCache
open Replication

namespace Instance

variable {σ : Type}

/-! ### Events -/

/-- Applies an event to the local engine. -/
def apply [Store σ] (i : Instance σ) (now : Nat) (e : Event) :
    Except CacheError Unit × Instance σ :=
  match e.kind with
  | .set => match e.valueToSet with
    | .error err => (.error err, i)
    | .ok v => i.run now fun engine => engine.setValue now e.region e.key v e.expiresAt
  | .delete => i.run now fun engine =>
    let (_, engine) := engine.delete e.region [e.key]
    (.ok (), engine)
  | .expire => match e.secondsToLive with
    | .error err => (.error err, i)
    | .ok seconds => i.run now fun engine =>
      let (result, engine) := engine.expire now e.region e.key seconds
      (result.map fun _ => (), engine)
  | .deleteRegion => i.run now fun engine => engine.deleteRegion e.region

/-- Applies the payload of a record on the replication topic. A primary ignores it, its own events
included; so does everyone one that cannot be read or applied. -/
def follow [Store σ] (i : Instance σ) (now : Nat) (payload : String) : Instance σ :=
  if i.member.isPrimary then i
  else match Event.ofPayload payload with
    | .error _ => i
    | .ok e => (i.apply now e).2

/-! ### Heartbeats -/

/-- Publishes a heartbeat. -/
def postBeat (i : Instance σ) (h : Heartbeat) : Instance σ :=
  i.post i.settings.healthTopic i.settings.instanceId h.payload

/-- Takes over a decision on the role: the member after it and the heartbeat that announces a
promotion. True when there was one. -/
def decide (i : Instance σ) : Option Heartbeat × Member → Bool × Instance σ
  | (some h, member) => (true, { i with member }.postBeat h)
  | (none, member) => (false, { i with member })

/-- Publishes the heartbeat of this moment. -/
def beat (i : Instance σ) (now : Nat) : Instance σ := i.postBeat (i.member.heartbeat now)

/-- Hears the payload of a record on the health topic; one that cannot be read is ignored. -/
def hear (i : Instance σ) (now : Nat) (payload : String) : Instance σ :=
  match Heartbeat.ofPayload payload with
  | .ok h => (i.decide (i.member.hear h now)).2
  | .error _ => i

/-- Decides at `now` whether the primary is gone and this instance takes its place. -/
def checkFailover (i : Instance σ) (now clock : Nat) : Bool × Instance σ :=
  i.decide (i.member.checkFailover now clock)

/-- Decides at `now` whether to become primary after the start. -/
def checkStartup (i : Instance σ) (now clock : Nat) : Bool × Instance σ :=
  i.decide (i.member.checkStartup now clock)

/-- Forgets the instances not heard for long. -/
def forgetPeers (i : Instance σ) (now : Nat) : Instance σ :=
  { i with member := i.member.forget now }

end Instance
end TierCache
