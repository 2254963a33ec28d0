import Mathlib.Data.List.Induction
import TierCache.Proofs.Replication.Failover

/-!
What an instance knows of the others against all that it heard. Forgetting leaves out only those that
are silent anyway, and the primary is always the one that was last heard as such; so a primary that
has fallen silent is none of the candidates for its own place.
-/
namespace TierCache.Replication.Failover
open Std

/-- What changes the knowledge of the others. -/
inductive Change
  | observe (h : Heartbeat)
  | prune
  | promoted

/-- The knowledge after a change at a reading of the clock. -/
def change (f : Failover) : Nat × Change → Failover
  | (now, .observe h) => f.observe h now
  | (now, .prune) => (f.prune now).2
  | (now, .promoted) => f.promoted now

def changes (f : Failover) (history : List (Nat × Change)) : Failover := history.foldl change f

/-- The heartbeat of an instance, and when it was heard, if that is what the change is. -/
def heardOf (id : String) : Nat × Change → Option (Nat × Heartbeat)
  | (now, .observe h) => if h.instanceId = id then some (now, h) else none
  | _ => none

/-- The last heartbeat that was heard of an instance, and when. -/
def lastHeard (id : String) (history : List (Nat × Change)) : Option (Nat × Heartbeat) :=
  (history.filterMap (heardOf id)).getLast?

theorem lastHeard_snoc (id : String) (past : List (Nat × Change)) (c : Nat × Change) :
    lastHeard id (past ++ [c]) = (heardOf id c).or (lastHeard id past) := by
  rw [lastHeard, List.filterMap_append, List.getLast?_append, lastHeard]
  cases hheard : heardOf id c with
  | none => simp [hheard]
  | some beat => simp [hheard]

/-- What is known goes by what was heard: of each instance the last time, unless it was forgotten as
too long ago at some reading, and the primary by its last heartbeat as one. -/
structure Recalls (f : Failover) (history : List (Nat × Change)) : Prop where
  known {id : String} {seen : Nat} (h : f.peers[id]? = some seen) :
    ∃ beat, lastHeard id history = some (seen, beat)
  forgotten {id : String} {seen : Nat} {beat : Heartbeat}
    (h : lastHeard id history = some (seen, beat)) (hgone : f.peers[id]? ≠ some seen) :
    ∃ c ∈ history, Text.mulCapped f.failoverTimeout 2 < c.1 - seen
  primary {id : String} (h : f.primaryId = some id) (hother : id ≠ f.instanceId) {seen : Nat}
    {beat : Heartbeat} (hlast : lastHeard id history = some (seen, beat))
    (hprimary : beat.isPrimary = true) : f.lastPrimaryBeat = some seen

theorem recalls_create (instanceId : String) (failoverTimeout startupWait startedAt : Nat) :
    Recalls (create instanceId failoverTimeout startupWait startedAt) [] where
  known h := by
    rw [create, ExtTreeMap.getElem?_empty] at h
    cases h
  forgotten := nofun
  primary := nofun

section
variable {f : Failover} {past : List (Nat × Change)} (h : Recalls f past) (now : Nat)
include h

theorem Recalls.observe (beat : Heartbeat) :
    Recalls (f.observe beat now) (past ++ [(now, .observe beat)]) := by
  constructor
  case known =>
    intro id seen hseen
    rw [observe_peers] at hseen
    rw [lastHeard_snoc, heardOf]
    split at hseen
    · rename_i hown
      cases hseen
      rw [if_pos hown]
      exact ⟨beat, rfl⟩
    · rename_i hother
      rw [if_neg hother, Option.none_or]
      exact h.known hseen
  case forgotten =>
    intro id seen last hlast hgone
    rw [lastHeard_snoc, heardOf] at hlast
    rw [observe_peers] at hgone
    by_cases hown : beat.instanceId = id
    · rw [if_pos hown] at hlast hgone
      cases hlast
      exact absurd rfl hgone
    · rw [if_neg hown, Option.none_or] at hlast
      rw [if_neg hown] at hgone
      obtain ⟨c, hc, hlong⟩ := h.forgotten hlast hgone
      exact ⟨c, List.mem_append_left _ hc, by rwa [observe_failoverTimeout]⟩
  case primary =>
    intro id hid hother seen last hlast hprimary
    rw [lastHeard_snoc, heardOf] at hlast
    rw [observe_instanceId] at hother
    rw [observe_lastPrimaryBeat]
    by_cases hown : beat.instanceId = id
    · rw [if_pos hown] at hlast
      cases hlast
      rw [if_pos hprimary]
    · rw [if_neg hown, Option.none_or] at hlast
      by_cases hbeat : beat.isPrimary = true
      · -- another primary was heard, and this one is no longer on record
        simp only [Failover.observe, hbeat, if_true, Option.some.injEq] at hid
        exact absurd hid hown
      · rw [if_neg hbeat]
        simp only [Failover.observe, hbeat, Bool.false_eq_true, if_false] at hid
        exact h.primary hid hother hlast hprimary

theorem Recalls.prune : Recalls (f.prune now).2 (past ++ [(now, .prune)]) := by
  have hheard (id : String) : lastHeard id (past ++ [(now, .prune)]) = lastHeard id past :=
    lastHeard_snoc id past _
  constructor
  case known =>
    intro id seen hseen
    rw [get_prune] at hseen
    rw [hheard]
    exact h.known (Option.filter_eq_some_iff.1 hseen).1
  case forgotten =>
    intro id seen beat hlast hgone
    rw [hheard] at hlast
    by_cases hknown : f.peers[id]? = some seen
    · refine ⟨(now, .prune), List.mem_append_right _ List.mem_cons_self, ?_⟩
      by_contra hshort
      apply hgone
      rw [get_prune, hknown, Option.filter_some, if_pos]
      exact decide_eq_true (Nat.not_lt.1 hshort)
    · obtain ⟨c, hc, hlong⟩ := h.forgotten hlast hknown
      exact ⟨c, List.mem_append_left _ hc, hlong⟩
  case primary =>
    intro id hid hother seen beat hlast hprimary
    rw [hheard] at hlast
    exact h.primary hid hother hlast hprimary

theorem Recalls.promoted : Recalls (f.promoted now) (past ++ [(now, .promoted)]) := by
  have hheard (id : String) : lastHeard id (past ++ [(now, .promoted)]) = lastHeard id past :=
    lastHeard_snoc id past _
  constructor
  case known =>
    intro id seen hseen
    rw [hheard]
    exact h.known hseen
  case forgotten =>
    intro id seen beat hlast hgone
    rw [hheard] at hlast
    obtain ⟨c, hc, hlong⟩ := h.forgotten hlast hgone
    exact ⟨c, List.mem_append_left _ hc, hlong⟩
  case primary =>
    intro id hid hother
    exact absurd (Option.some.inj hid).symm hother

theorem Recalls.change (c : Nat × Change) : Recalls (f.change c) (past ++ [c]) := by
  obtain ⟨now, c⟩ := c
  cases c with
  | observe beat => exact h.observe now beat
  | prune => exact h.prune now
  | promoted => exact h.promoted now

end

@[simp] theorem change_instanceId (f : Failover) (c : Nat × Change) :
    (f.change c).instanceId = f.instanceId := by
  obtain ⟨now, c⟩ := c
  cases c with
  | observe beat => exact observe_instanceId f now beat
  | prune | promoted => rfl

@[simp] theorem change_failoverTimeout (f : Failover) (c : Nat × Change) :
    (f.change c).failoverTimeout = f.failoverTimeout := by
  obtain ⟨now, c⟩ := c
  cases c with
  | observe beat => exact observe_failoverTimeout f now beat
  | prune | promoted => rfl

/-- Whatever happens after the start is recalled; who the instance is and how long it waits stay. -/
theorem recalls_changes (instanceId : String) (failoverTimeout startupWait startedAt : Nat)
    (history : List (Nat × Change)) :
    Recalls (changes (create instanceId failoverTimeout startupWait startedAt) history) history ∧
      (changes (create instanceId failoverTimeout startupWait startedAt) history).instanceId =
        instanceId ∧
      (changes (create instanceId failoverTimeout startupWait startedAt) history).failoverTimeout =
        failoverTimeout := by
  induction history using List.reverseRecOn with
  | nil => exact ⟨recalls_create .., rfl, rfl⟩
  | append_singleton past c ih =>
    obtain ⟨hpast, hself, htimeout⟩ := ih
    rw [changes, List.foldl_append, List.foldl_cons, List.foldl_nil, change_instanceId,
      change_failoverTimeout]
    exact ⟨hpast.change c, hself, htimeout⟩

section
variable {f : Failover} {history : List (Nat × Change)} (h : Recalls f history)
  (hrange : f.failoverTimeout ≤ Text.maxUnsigned) {now : Nat} (hnow : ∀ c ∈ history, c.1 ≤ now)
include h hrange hnow

/-- The live are those that were heard within the timeout, whatever was forgotten. -/
theorem Recalls.mem_livePeers {id : String} : id ∈ f.livePeers now ↔
    ∃ seen beat, lastHeard id history = some (seen, beat) ∧ now - seen ≤ f.failoverTimeout := by
  rw [mem_livePeers_iff]
  constructor
  · rintro ⟨seen, hseen, hlive⟩
    obtain ⟨beat, hlast⟩ := h.known hseen
    exact ⟨seen, beat, hlast, hlive⟩
  · rintro ⟨seen, beat, hlast, hlive⟩
    refine ⟨seen, ?_, hlive⟩
    -- forgotten means silent for twice the timeout, at a reading that is past
    by_contra hgone
    obtain ⟨c, hc, hlong⟩ := h.forgotten hlast hgone
    have hpast := hnow c hc
    rw [Text.mulCapped] at hlong
    omega

theorem Recalls.isLeast_elect : IsLeast {id | id = f.instanceId ∨ ∃ seen beat,
    lastHeard id history = some (seen, beat) ∧ now - seen ≤ f.failoverTimeout} (f.elect now) := by
  have hleast := f.isLeast_elect now
  simp only [h.mem_livePeers hrange hnow] at hleast
  exact hleast

/-- A primary that is missed does not win, unless it showed up in another role since. -/
theorem Recalls.elect_ne {primary : String} {seen : Nat} {beat : Heartbeat}
    (hmissed : f.shouldFailover now = true) (hprimary : f.primaryId = some primary)
    (hother : primary ≠ f.instanceId) (hlast : lastHeard primary history = some (seen, beat))
    (hbeat : beat.isPrimary = true) : f.elect now ≠ primary := by
  intro heq
  have hsilent := h.primary hprimary hother hlast hbeat
  simp only [shouldFailover, hsilent, Option.getD_some, decide_eq_true_eq] at hmissed
  obtain hself | ⟨last, again, hagain, hlive⟩ := (h.isLeast_elect hrange hnow).1
  · exact hother (heq.symm.trans hself)
  · rw [heq, hlast] at hagain
    cases hagain
    omega

end

/-- After any history of heartbeats heard, of forgetting and of own promotions, at readings of the
clock that are past: the winner of an election is the least among the instance and those whose last
heartbeat is no older than the timeout. When the recorded primary is another instance, was last heard
as primary and is missed for longer than the timeout, it is not the winner. -/
theorem elect_heard (instanceId : String) {failoverTimeout : Nat}
    (hrange : failoverTimeout ≤ Text.maxUnsigned) (startupWait startedAt : Nat)
    {history : List (Nat × Change)} {now : Nat} (hnow : ∀ c ∈ history, c.1 ≤ now) :
    let f := changes (create instanceId failoverTimeout startupWait startedAt) history
    IsLeast {id | id = instanceId ∨ ∃ seen beat, lastHeard id history = some (seen, beat) ∧
        now - seen ≤ failoverTimeout} (f.elect now) ∧
      ∀ primary seen beat, f.shouldFailover now = true → f.primaryId = some primary →
        primary ≠ instanceId → lastHeard primary history = some (seen, beat) →
        beat.isPrimary = true → f.elect now ≠ primary := by
  intro f
  obtain ⟨hrecalls, hself, htimeout⟩ :=
    recalls_changes instanceId failoverTimeout startupWait startedAt history
  have hleast := hrecalls.isLeast_elect (htimeout.le.trans hrange) hnow
  rw [hself, htimeout] at hleast
  refine ⟨hleast, fun primary seen beat hmissed hprimary hother hlast hbeat => ?_⟩
  exact hrecalls.elect_ne (htimeout.le.trans hrange) hnow hmissed hprimary
    (fun heq => hother (heq.trans hself)) hlast hbeat

/-- A primary was heard for the last time, then another instance twice, and the silent one was
forgotten at just the reading at which it is missed. -/
theorem elect_heard_forgotten :
    let history := [(1000, Change.observe ⟨"a", true, 0⟩), (9000, .observe ⟨"c", false, 0⟩),
      (20000, .observe ⟨"c", false, 0⟩), (31001, .prune)]
    let f := changes (create "b" 15000 10000 0) history
    (∀ c ∈ history, c.1 ≤ 31001) ∧ f.shouldFailover 31001 = true ∧ f.primaryId = some "a" ∧
      lastHeard "a" history = some (1000, ⟨"a", true, 0⟩) ∧
      IsLeast {id | id = "b" ∨ ∃ seen beat, lastHeard id history = some (seen, beat) ∧
        31001 - seen ≤ 15000} (f.elect 31001) ∧ f.elect 31001 ≠ "a" := by
  intro history f
  have hnow : ∀ c ∈ history, c.1 ≤ 31001 := by decide
  have hmissed : f.shouldFailover 31001 = true := by decide
  have hprimary : f.primaryId = some "a" := by decide
  have hlast : lastHeard "a" history = some (1000, ⟨"a", true, 0⟩) := by decide
  have hrange : 15000 ≤ Text.maxUnsigned := by decide
  obtain ⟨hleast, hne⟩ := elect_heard "b" hrange 10000 0 hnow
  exact ⟨hnow, hmissed, hprimary, hlast, hleast,
    hne "a" 1000 _ hmissed hprimary (by decide) hlast rfl⟩

end TierCache.Replication.Failover
