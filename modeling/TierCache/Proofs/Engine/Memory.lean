import TierCache.Proofs.Engine.Regions

/-! What claiming a slot leaves in memory, and what is never touched by it. -/
namespace TierCache
open Std

namespace Engine

variable {σ : Type}

/-- The later engine has no entry in memory that the earlier one has not. -/
def Shrinks (e later : Engine σ) : Prop :=
  ∀ (region key : String) (entry : Entry),
    (later.regionD region).memory[key]? = some entry → (e.regionD region).memory[key]? = some entry

theorem shrinks_tryReserve (e : Engine σ) : e.Shrinks e.tryReserve.2 := by
  intro region key entry hm
  unfold tryReserve at hm
  split at hm
  · exact hm
  · exact hm

theorem shrinks_evictOne (e : Engine σ) : e.Shrinks e.evictOne.2 := by
  intro region key entry hm
  unfold evictOne at hm
  split at hm
  · exact hm
  · rename_i home gone _ _
    have hcleared : ((e.setRegion home { e.regionD home with
        memory := (e.regionD home).memory.erase gone,
        lru := (e.regionD home).lru.remove gone }).regionD region).memory[key]? = some entry := by
      dsimp only at hm
      split at hm
      · exact hm
      · exact hm
    rw [regionD_setRegion] at hcleared
    split at hcleared
    · rename_i heq
      rw [Tree.get_erase] at hcleared
      split at hcleared
      · cases hcleared
      · exact heq ▸ hcleared
    · exact hcleared

theorem Shrinks.trans {e e' e'' : Engine σ} (h : e.Shrinks e') (h' : e'.Shrinks e'') :
    e.Shrinks e'' :=
  fun region key entry hm => h region key entry (h' region key entry hm)

/-- Claiming a slot keeps what single claims and evictions keep. -/
theorem reserve_keeps {P : Engine σ → Prop} (tryReserve : ∀ e, P e → P e.tryReserve.2)
    (evictOne : ∀ e, P e → P e.evictOne.2) {e : Engine σ} (h : P e) : P e.reserve.2 := by
  have hwithin (fuel : Nat) {e : Engine σ} (h : P e) : P (e.reserveWithin fuel).2 := by
    induction fuel generalizing e with
    | zero => exact tryReserve e h
    | succ fuel ih =>
      have htry := tryReserve e h
      unfold reserveWithin
      split
      · rename_i heq
        rwa [heq] at htry
      · rename_i e₁ heq
        rw [heq] at htry
        have hevict := evictOne e₁ htry
        split
        · rename_i heq₂
          rw [heq₂] at hevict
          exact ih hevict
        · rename_i heq₂
          rwa [heq₂] at hevict
  exact hwithin _ h

theorem shrinks_reserve (e : Engine σ) : e.Shrinks e.reserve.2 :=
  reserve_keeps (P := e.Shrinks) (fun later h => h.trans later.shrinks_tryReserve)
    (fun later h => h.trans later.shrinks_evictOne) (fun _ _ _ hm => hm)

theorem setRegion_setRegion (e : Engine σ) (region : String) (s s' : Region) :
    (e.setRegion region s).setRegion region s' = e.setRegion region s' := by
  unfold setRegion
  rw [Tree.insert_insert]

/-! ### Store and known keys -/

@[simp] theorem store_tryReserve (e : Engine σ) : e.tryReserve.2.store = e.store := by
  unfold tryReserve
  split <;> rfl

@[simp] theorem regions_tryReserve (e : Engine σ) : e.tryReserve.2.regions = e.regions := by
  unfold tryReserve
  split <;> rfl

theorem store_evictOne (e : Engine σ) : e.evictOne.2.store = e.store := by
  unfold evictOne
  split
  · rfl
  · dsimp only
    split <;> rfl

@[simp] theorem store_reserve (e : Engine σ) : e.reserve.2.store = e.store :=
  reserve_keeps (P := fun later => later.store = e.store)
    (fun later h => later.store_tryReserve.trans h) (fun later h => later.store_evictOne.trans h)
    rfl

/-- Makes a key known. -/
def know (e : Engine σ) (region key : String) : Engine σ :=
  e.setRegion region { e.regionD region with known := (e.regionD region).known.insert key }

theorem known_know (e : Engine σ) (region key other name : String) :
    ((e.know region key).regionD other).known.contains name = true ↔
      (region = other ∧ key = name) ∨ (e.regionD other).known.contains name = true := by
  rw [know, regionD_setRegion]
  by_cases hregion : region = other
  · subst hregion
    simp [ExtTreeSet.contains_insert]
  · simp [hregion]

theorem memory_know (e : Engine σ) (region key other : String) :
    ((e.know region key).regionD other).memory = (e.regionD other).memory := by
  rw [know, regionD_setRegion]
  split
  · rename_i hregion
    rw [hregion]
  · rfl

/-! ### Putting an entry into memory -/

theorem known_hold (e : Engine σ) (region key other : String) (entry : Entry) :
    ((e.hold region key entry).regionD other).known = (e.regionD other).known := by
  rw [show (e.hold region key entry).regionD other = _ from regionD_setRegion ..]
  split
  · rename_i heq
    rw [heq]
  · rfl

theorem memory_hold (e : Engine σ) (region key other name : String) (entry : Entry) :
    ((e.hold region key entry).regionD other).memory[name]? =
      if region = other ∧ key = name then some entry else (e.regionD other).memory[name]? := by
  rw [show (e.hold region key entry).regionD other = _ from regionD_setRegion ..]
  by_cases hregion : region = other
  · subst hregion
    simp only [if_true, Tree.get_insert, true_and]
  · simp only [hregion, if_false, false_and]

section Install
variable (e : Engine σ) (region : String) (entry : Entry) (reserved : Bool)

@[simp] theorem store_install : (e.install region entry reserved).2.store = e.store := by
  have htry := e.store_tryReserve
  unfold install
  split
  · dsimp only
    split <;> rfl
  · split
    · rfl
    · split
      · rename_i heq
        rwa [heq] at htry
      · rename_i heq
        rwa [heq] at htry

/-- An entry is put into memory, or there is no slot for it and memory has none of the key. -/
theorem regions_install :
    (e.install region entry reserved).2.regions = (e.hold region entry.key entry).regions ∨
      (e.regionD region).memory.contains entry.key = false ∧
        (e.install region entry reserved).2.regions = e.regions := by
  unfold install
  split
  · left
    dsimp only
    split <;> rfl
  · rename_i hout
    split
    · exact .inl rfl
    · unfold tryReserve
      split
      · rename_i heq
        split at heq <;> cases heq
        exact .inl rfl
      · rename_i heq
        split at heq <;> cases heq
        exact .inr ⟨eq_false_of_ne_true hout, rfl⟩

theorem known_install (other : String) :
    ((e.install region entry reserved).2.regionD other).known = (e.regionD other).known := by
  obtain hheld | ⟨-, hsame⟩ := e.regions_install region entry reserved
  · rw [regionD_of_regions hheld, known_hold]
  · rw [regionD_of_regions hsame]

/-- The only entry of the key in memory is the one put there. -/
theorem memory_install {other name : String} {found : Entry}
    (hm : ((e.install region entry reserved).2.regionD other).memory[name]? = some found) :
    (region = other ∧ entry.key = name ∧ found = entry) ∨
      (¬(region = other ∧ entry.key = name) ∧ (e.regionD other).memory[name]? = some found) := by
  obtain hheld | ⟨hout, hsame⟩ := e.regions_install region entry reserved
  · rw [regionD_of_regions hheld, memory_hold] at hm
    split at hm
    · rename_i hname
      cases hm
      exact .inl ⟨hname.1, hname.2, rfl⟩
    · rename_i hname
      exact .inr ⟨hname, hm⟩
  · rw [regionD_of_regions hsame] at hm
    refine .inr ⟨?_, hm⟩
    rintro ⟨rfl, rfl⟩
    rw [ExtTreeMap.getElem?_eq_none_of_contains_eq_false hout] at hm
    cases hm

end Install

end Engine
end TierCache
