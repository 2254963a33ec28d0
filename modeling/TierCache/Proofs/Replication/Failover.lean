import Mathlib.Data.String.Basic
import Mathlib.Order.Bounds.Defs
import TierCache.Proofs.Tree
import TierCache.Replication.Failover

/-!
What the decisions on the primary go by: an instance that takes over has missed the primary for
longer than the timeout, and no live peer has a lesser identifier.
-/
namespace TierCache.Replication.Failover
open Std

variable {f : Failover} {now : Nat}

/-! ### What a heartbeat leaves -/

section Observe
variable (f) (h : Heartbeat) (now)

@[simp] theorem observe_instanceId : (f.observe h now).instanceId = f.instanceId := by
  unfold observe
  split <;> rfl

@[simp] theorem observe_failoverTimeout :
    (f.observe h now).failoverTimeout = f.failoverTimeout := by
  unfold observe
  split <;> rfl

@[simp] theorem observe_startedAt : (f.observe h now).startedAt = f.startedAt := by
  unfold observe
  split <;> rfl

theorem observe_peers (id : String) : (f.observe h now).peers[id]? =
    if h.instanceId = id then some now else f.peers[id]? := by
  have hpeers : (f.observe h now).peers = f.peers.insert h.instanceId now := by
    unfold observe
    split <;> rfl
  rw [hpeers, Tree.get_insert]

@[simp] theorem observe_lastPrimaryBeat : (f.observe h now).lastPrimaryBeat =
    if h.isPrimary then some now else f.lastPrimaryBeat := by
  unfold observe
  split <;> rfl

end Observe

/-! ### Elections -/

/-- The least of a name and others is none of a greater name. -/
theorem foldl_least_le (ids : List String) (best : String) :
    ids.foldl (fun best id => if id < best then id else best) best ≤ best ∧
      ∀ id ∈ ids, ids.foldl (fun best id => if id < best then id else best) best ≤ id := by
  induction ids generalizing best with
  | nil => exact ⟨le_rfl, nofun⟩
  | cons first rest ih =>
    obtain ⟨hbest, hrest⟩ := ih (if first < best then first else best)
    rw [List.foldl_cons]
    by_cases hless : first < best
    · rw [if_pos hless] at hbest hrest ⊢
      refine ⟨hbest.trans hless.le, ?_⟩
      rintro id (_ | ⟨_, hid⟩)
      · exact hbest
      · exact hrest id hid
    · rw [if_neg hless] at hbest hrest ⊢
      refine ⟨hbest, ?_⟩
      rintro id (_ | ⟨_, hid⟩)
      · exact hbest.trans (le_of_not_gt hless)
      · exact hrest id hid

theorem foldl_least_mem (ids : List String) (best : String) :
    ids.foldl (fun best id => if id < best then id else best) best ∈ best :: ids := by
  induction ids generalizing best with
  | nil => exact List.mem_cons_self
  | cons first rest ih =>
    rw [List.foldl_cons]
    obtain heq | hrest := List.mem_cons.1 (ih (if first < best then first else best))
    · rw [heq]
      split
      · exact List.mem_cons_of_mem _ List.mem_cons_self
      · exact List.mem_cons_self
    · exact List.mem_cons_of_mem _ (List.mem_cons_of_mem _ hrest)

theorem mem_livePeers_iff {id : String} : id ∈ f.livePeers now ↔
    ∃ seen, f.peers[id]? = some seen ∧ now - seen ≤ f.failoverTimeout := by
  simp only [livePeers, List.mem_map, List.mem_filter, decide_eq_true_eq, Prod.exists,
    ExtTreeMap.mem_toList_iff_getElem?_eq_some]
  constructor
  · rintro ⟨other, seen, ⟨hpeer, hlive⟩, rfl⟩
    exact ⟨seen, hpeer, hlive⟩
  · rintro ⟨seen, hpeer, hlive⟩
    exact ⟨id, seen, ⟨hpeer, hlive⟩, rfl⟩

theorem mem_livePeers {id : String} {seen : Nat} (hpeer : f.peers[id]? = some seen)
    (hlive : now ≤ seen + f.failoverTimeout) : id ∈ f.livePeers now :=
  mem_livePeers_iff.2 ⟨seen, hpeer, by omega⟩

/-- The winner is one of those that live, and the least of them. -/
theorem isLeast_elect (f : Failover) (now : Nat) :
    IsLeast {id | id = f.instanceId ∨ id ∈ f.livePeers now} (f.elect now) := by
  obtain ⟨hself, hpeers⟩ := foldl_least_le (f.livePeers now) f.instanceId
  refine ⟨List.mem_cons.1 (foldl_least_mem _ _), ?_⟩
  rintro id (rfl | hid)
  · exact hself
  · exact hpeers id hid

/-- The winner of an election is the least of all that live. -/
theorem le_of_winsElection (h : f.winsElection now = true) {id : String} {seen : Nat}
    (hpeer : f.peers[id]? = some seen) (hlive : now ≤ seen + f.failoverTimeout) :
    f.instanceId ≤ id := by
  simp only [winsElection, decide_eq_true_eq] at h
  rw [← h]
  exact (foldl_least_le _ _).2 id (mem_livePeers hpeer hlive)

/-! ### Missing primaries -/

/-- Whoever heard the primary within the timeout, or just started, waits. -/
theorem silent_of_shouldFailover (h : f.shouldFailover now = true)
    (hrecent : ∀ seen, f.lastPrimaryBeat = some seen → now ≤ seen + f.failoverTimeout) :
    f.lastPrimaryBeat = none ∧ f.startedAt + f.failoverTimeout < now := by
  simp only [shouldFailover, decide_eq_true_eq] at h
  cases hlast : f.lastPrimaryBeat with
  | none =>
    rw [hlast, Option.getD_none] at h
    exact ⟨rfl, by omega⟩
  | some seen =>
    have := hrecent seen hlast
    rw [hlast, Option.getD_some] at h
    omega

theorem silent_of_startupCheck (h : f.startupCheck now = true)
    (hrecent : ∀ seen, f.lastPrimaryBeat = some seen → now ≤ seen + f.failoverTimeout) :
    f.lastPrimaryBeat = none := by
  simp only [startupCheck, Bool.and_eq_true, primaryMissing] at h
  cases hlast : f.lastPrimaryBeat with
  | none => rfl
  | some seen =>
    have := hrecent seen hlast
    rw [hlast] at h
    simp only [decide_eq_true_eq] at h
    omega

/-! ### Forgetting -/

theorem get_prune (f : Failover) (now : Nat) (id : String) : (f.prune now).2.peers[id]? =
    f.peers[id]?.filter fun seen => now - seen ≤ Text.mulCapped f.failoverTimeout 2 := by
  simp only [prune, ExtTreeMap.getElem?_filter']

/-- Who is live is not forgotten. -/
theorem prune_peers {id : String} {seen : Nat} (hpeer : f.peers[id]? = some seen)
    (hlive : now ≤ seen + f.failoverTimeout) (hnow : now ≤ Text.maxUnsigned) :
    (f.prune now).2.peers[id]? = some seen := by
  have hwindow : now - seen ≤ Text.mulCapped f.failoverTimeout 2 := by
    simp only [Text.mulCapped]
    omega
  simp only [get_prune, hpeer, Option.filter_some, hwindow, decide_true, if_true]

end TierCache.Replication.Failover
