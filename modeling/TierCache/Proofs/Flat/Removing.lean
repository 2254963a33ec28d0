import TierCache.Proofs.Flat.Writing

/-! Removals from an engine that mirrors a flat cache remove the same rows, and count them. -/
namespace TierCache
open Std

namespace Mirrors

variable {σ : Type} {stands : σ → Table → Prop} {e : Engine σ} {f : Flat}

/-- A row that is gone from the store is gone once its key is neither known nor in memory. -/
theorem erase (h : Mirrors stands e f) {region key : String} {store : σ}
    (stored : ∃ t, stands store t ∧ t.Holds (f.erase region key).rows) (lru : Lru) :
    Mirrors stands ({ e with store }.setRegion region ⟨(e.regionD region).known.erase key,
      (e.regionD region).memory.erase key, lru⟩) (f.erase region key) := by
  have hrows (other : String) : (f.erase region key).rows[RowId.mk region other]? =
      if key = other then none else f.rows[RowId.mk region other]? := by
    rw [Flat.erase, Tree.get_erase]
    simp
  apply h.rewrite stored
  · intro id hid
    rw [Flat.erase, Tree.get_erase, if_neg (by rintro rfl; exact hid rfl)]
  · intro other
    have hold := h.known region other
    rw [hrows, ExtTreeSet.contains_erase, hold, Flat.row?]
    by_cases hkey : key = other
    · simp [hkey]
    · simp [hkey]
  · intro other entry hm
    rw [Tree.get_erase] at hm
    split at hm
    · cases hm
    · rename_i hne
      exact (h.copied hm).of_agree ((hrows other).trans (if_neg hne))

section
variable [Store σ] (reliable : Reliable stands)
include reliable

theorem removeKey (h : Mirrors stands e f) (region key : String) :
    (e.removeKey region key).1 = (f.row? region key).isSome ∧
      Mirrors stands (e.removeKey region key).2 (f.erase region key) := by
  refine ⟨h.known region key, ?_⟩
  obtain ⟨t, hstands, holds⟩ := h.stored
  obtain ⟨s, hdelete, hs⟩ := reliable.delete hstands region key
  have hm := h.erase ⟨_, hs, holds.erase region key⟩ ((e.regionD region).lru.remove key)
  unfold Engine.removeKey
  dsimp only
  split
  · rw [show Store.delete region key (e.setRegion region ⟨(e.regionD region).known.erase key,
      (e.regionD region).memory.erase key, (e.regionD region).lru.remove key⟩).release.store =
      (.ok (), s) from hdelete]
    exact ⟨hm.stored, hm.known, hm.copied, hm.defaultRegion, hm.hits, hm.misses, hm.told⟩
  · rw [Engine.setRegion_store, hdelete]
    exact ⟨hm.stored, hm.known, hm.copied, hm.defaultRegion, hm.hits, hm.misses, hm.told⟩

theorem removeKeys (region : String) (keys : List String) :
    Simulates stands (·.removeKeys region keys) (·.delete region keys) := by
  induction keys with
  | nil =>
    intro e f h
    exact ⟨rfl, h⟩
  | cons key rest ih =>
    intro e f h
    obtain ⟨hwas, hm⟩ := h.removeKey reliable region key
    simp only [Engine.removeKeys, Flat.delete, f.contains_rows]
    cases hremove : e.removeKey region key with
    | mk was e' =>
      rw [hremove] at hwas hm
      rw [← hwas]
      cases was with
      | true =>
        obtain ⟨hcount, hrest⟩ := ih (hm.announce (.delete region key) region key .delete)
        exact ⟨congrArg (· + 1) hcount, hrest⟩
      | false =>
        have hnone : f.row? region key = none := by
          simpa using hwas.symm
        rw [Flat.erase_of_none hnone] at hm
        exact ih hm

theorem delete (region : String) (keys : List String) :
    Simulates stands (·.delete region keys) (·.delete region keys) := by
  intro e f h
  cases hregion : e.region? region with
  | some state =>
    simp only [Engine.delete, hregion]
    exact removeKeys reliable region keys h
  | none =>
    simp only [Engine.delete, hregion, f.delete_of_none (h.row_none hregion)]
    exact ⟨trivial, h⟩

end
end Mirrors
end TierCache
