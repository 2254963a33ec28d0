import TierCache.Engine.Memory
import TierCache.Proofs.Tree

/-! What the state of a region is after a change to one of them, and sums over all regions. -/
namespace TierCache
open Std

@[simp] theorem Region.known_empty : Region.empty.known = ∅ := rfl
@[simp] theorem Region.memory_empty : Region.empty.memory = ∅ := rfl
@[simp] theorem Region.lru_empty : Region.empty.lru = .empty := rfl

namespace Engine

variable {σ : Type}

section Fields
variable (e : Engine σ) (region : String) (s : Region)

@[simp] theorem setRegion_store : (e.setRegion region s).store = e.store := rfl
@[simp] theorem setRegion_resident : (e.setRegion region s).resident = e.resident := rfl

end Fields

theorem region?_setRegion (e : Engine σ) (region other : String) (s : Region) :
    (e.setRegion region s).region? other = if region = other then some s else e.region? other :=
  Tree.get_insert e.regions region s other

theorem regionD_setRegion (e : Engine σ) (region other : String) (s : Region) :
    (e.setRegion region s).regionD other = if region = other then s else e.regionD other := by
  rw [regionD, region?_setRegion]
  split <;> rfl

@[simp] theorem regionD_setRegion_self (e : Engine σ) (region : String) (s : Region) :
    (e.setRegion region s).regionD region = s := by
  simp [regionD_setRegion]

theorem regionD_of_region? {e : Engine σ} {region : String} {s : Region}
    (h : e.region? region = some s) : e.regionD region = s := by
  rw [regionD, h]
  rfl

theorem regionD_of_none {e : Engine σ} {region : String} (h : e.region? region = none) :
    e.regionD region = .empty := by
  rw [regionD, h]
  rfl

theorem regionD_of_regions {e e' : Engine σ} (h : e'.regions = e.regions) (region : String) :
    e'.regionD region = e.regionD region := by
  rw [regionD, region?, h]
  rfl

@[simp] theorem regionD_fresh (store : σ) (capacity : Nat) (defaultRegion region : String) :
    (fresh store capacity defaultRegion).regionD region = .empty := by
  have hget := Tree.get_insert (∅ : ExtTreeMap String Region) defaultRegion Region.empty region
  rw [regionD, region?, fresh, hget]
  split <;> rfl

/-- A region that comes into being is empty, as a missing one counts. -/
theorem ensureRegion_cases (e : Engine σ) (region : String) :
    ((∃ s, e.region? region = some s) ∧ e.ensureRegion region = e) ∨
    (e.region? region = none ∧ e.ensureRegion region = e.setRegion region .empty) := by
  have hc : e.regions.contains region = (e.region? region).isSome :=
    ExtTreeMap.contains_eq_isSome_getElem?
  rw [ensureRegion, hc]
  cases h : e.region? region with
  | none => exact .inr ⟨rfl, by simp⟩
  | some s => exact .inl ⟨⟨s, rfl⟩, by simp⟩

@[simp] theorem store_ensureRegion (e : Engine σ) (region : String) :
    (e.ensureRegion region).store = e.store := by
  obtain ⟨-, heq⟩ | ⟨-, heq⟩ := e.ensureRegion_cases region
  · rw [heq]
  · rw [heq]
    rfl

theorem regionD_ensureRegion (e : Engine σ) (region other : String) :
    (e.ensureRegion region).regionD other = e.regionD other := by
  obtain ⟨-, heq⟩ | ⟨hnone, heq⟩ := e.ensureRegion_cases region
  · rw [heq]
  · rw [heq, regionD_setRegion]
    split
    · rename_i hsame
      rw [← hsame, regionD_of_none hnone]
    · rfl

/-! ### Sums over the regions -/

/-- A figure of the regions, summed up. -/
def total (e : Engine σ) (f : Region → Nat) : Nat := Tree.sum f e.regions

theorem total_setRegion (e : Engine σ) {f : Region → Nat} (hf : f .empty = 0) (region : String)
    (s : Region) : (e.setRegion region s).total f + f (e.regionD region) = e.total f + f s := by
  have h := Tree.sum_insert f e.regions region s
  have helim : (e.regions[region]?).elim 0 f = f (e.regionD region) := by
    rw [regionD, region?]
    cases e.regions[region]? with
    | none => exact hf.symm
    | some _ => rfl
  rw [helim] at h
  exact h

theorem le_total (e : Engine σ) {f : Region → Nat} (hf : f .empty = 0) (region : String) :
    f (e.regionD region) ≤ e.total f := by
  rw [regionD]
  cases hs : e.region? region with
  | none => simp [hf]
  | some s => exact Tree.le_sum f e.regions hs

/-- The number of entries in memory, over all regions. -/
def residents (e : Engine σ) : Nat := e.total (·.memory.size)

theorem residents_setRegion (e : Engine σ) (region : String) (s : Region) :
    (e.setRegion region s).residents + (e.regionD region).memory.size =
      e.residents + s.memory.size :=
  e.total_setRegion (by simp) region s

theorem size_le_residents (e : Engine σ) (region : String) :
    (e.regionD region).memory.size ≤ e.residents :=
  e.le_total (f := fun s => s.memory.size) (by simp) region

theorem residents_fresh (store : σ) (capacity : Nat) (defaultRegion : String) :
    (fresh store capacity defaultRegion).residents = 0 := by
  have hsum := Tree.sum_insert (fun s : Region => s.memory.size) (∅ : ExtTreeMap String Region)
    defaultRegion .empty
  simp only [ExtTreeMap.getElem?_empty, Option.elim_none, Tree.sum_empty] at hsum
  exact hsum

theorem knownCount_eq (e : Engine σ) : e.knownCount = e.total (·.known.size) := rfl

end Engine
end TierCache
