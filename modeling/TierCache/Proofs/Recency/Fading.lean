import TierCache.Proofs.Outage.Removing
import TierCache.Proofs.Recency.Order

/-!
Operations that touch no entry. Looking into memory leaves it as it is; expiry and removal change what an
entry says or take it out of memory for good, and no other entry makes room for anything.
-/
namespace TierCache
open Std

namespace Engine

variable {σ α : Type} {e e' e'' : Engine σ}

/-- Memory is as it was. -/
structure Still (e e' : Engine σ) : Prop where
  regions (region : String) : e'.regionD region = e.regionD region
  clock : e'.clock = e.clock
  resident : e'.resident = e.resident
  capacity : e'.capacity = e.capacity
  evictions : e'.stats.evictions = e.stats.evictions

/-- No entry was touched, none came into memory or made room, and what left memory is not known any
more. -/
structure Fades (e e' : Engine σ) : Prop where
  clock : e'.clock = e.clock
  evictions : e'.stats.evictions = e.stats.evictions
  stamps (id : RowId) (tick : Nat) (h : e'.stamp? id = some tick) : e.stamp? id = some tick
  stays (id : RowId) (h : e'.inMemory id = true) : e.inMemory id = true
  known (id : RowId) (h : e'.knows id = true) : e.knows id = true
  gone (id : RowId) (h : e.inMemory id = true) (h' : e'.inMemory id = false) : e'.knows id = false

namespace Still

theorem refl (e : Engine σ) : e.Still e := ⟨fun _ => rfl, rfl, rfl, rfl, rfl⟩

theorem trans (h : e.Still e') (h' : e'.Still e'') : e.Still e'' :=
  ⟨fun region => (h'.regions region).trans (h.regions region), h'.clock.trans h.clock,
    h'.resident.trans h.resident, h'.capacity.trans h.capacity, h'.evictions.trans h.evictions⟩

theorem withStore (e : Engine σ) (store : σ) : e.Still { e with store } :=
  ⟨fun _ => rfl, rfl, rfl, rfl, rfl⟩

theorem announce (e : Engine σ) (m : Mutation) (region key : String) (kind : ChangeKind) :
    e.Still (e.announce m region key kind) :=
  ⟨fun _ => rfl, rfl, rfl, rfl, rfl⟩

theorem ensureRegion (e : Engine σ) (region : String) : e.Still (e.ensureRegion region) := by
  obtain ⟨-, heq⟩ | ⟨-, heq⟩ := e.ensureRegion_cases region
  · rw [heq]
    exact refl e
  · refine ⟨e.regionD_ensureRegion region, ?_, ?_, ?_, ?_⟩
    all_goals rw [heq]; rfl

theorem stamp? (h : e.Still e') (id : RowId) : e'.stamp? id = e.stamp? id := by
  rw [Engine.stamp?, h.regions]
  rfl

theorem inMemory (h : e.Still e') (id : RowId) : e'.inMemory id = e.inMemory id := by
  rw [Engine.inMemory, isResident, h.regions]
  rfl

theorem knows (h : e.Still e') (id : RowId) : e'.knows id = e.knows id := by
  rw [Engine.knows, h.regions]
  rfl

theorem oldest (h : e.Still e') {id : RowId} (hold : e'.Oldest id) : e.Oldest id := by
  obtain ⟨tick, hs, hleast⟩ := hold
  refine ⟨tick, (h.stamp? id).symm.trans hs, fun other seen hseen => ?_⟩
  exact hleast other seen ((h.stamp? other).trans hseen)

theorem recalls (h : e.Still e') {history : List RowId} (recalls : e.Recalls history) :
    e'.Recalls history :=
  recalls.fade h.clock.ge fun id _ hs => (h.stamp? id).symm.trans hs

theorem fades (h : e.Still e') : e.Fades e' where
  clock := h.clock
  evictions := h.evictions
  stamps id _ hs := (h.stamp? id).symm.trans hs
  stays id hin := (h.inMemory id).symm.trans hin
  known id hk := (h.knows id).symm.trans hk
  gone id hin hout := by
    rw [h.inMemory, hin] at hout
    cases hout

end Still

namespace Fades

theorem refl (e : Engine σ) : e.Fades e := (Still.refl e).fades

theorem trans (h : e.Fades e') (h' : e'.Fades e'') : e.Fades e'' where
  clock := h'.clock.trans h.clock
  evictions := h'.evictions.trans h.evictions
  stamps id tick hs := h.stamps id tick (h'.stamps id tick hs)
  stays id hin := h.stays id (h'.stays id hin)
  known id hk := h.known id (h'.known id hk)
  gone id hin hout := by
    cases hmid : e'.inMemory id with
    | true => exact h'.gone id hmid hout
    | false =>
      rw [← Bool.not_eq_true]
      intro hknown
      exact Bool.false_ne_true ((h.gone id hin hmid).symm.trans (h'.known id hknown))

theorem recalls (h : e.Fades e') {history : List RowId} (recalls : e.Recalls history) :
    e'.Recalls history :=
  recalls.fade h.clock.ge h.stamps

/-- One region has fewer keys. -/
theorem setRegion (e : Engine σ) {region : String} {s : Region}
    (stamps : ∀ (key : String) (tick : Nat), s.lru.stamps[key]? = some tick →
      (e.regionD region).lru.stamps[key]? = some tick)
    (memory : ∀ key, s.memory.contains key = true → (e.regionD region).memory.contains key = true)
    (known : ∀ key, s.known.contains key = true → (e.regionD region).known.contains key = true)
    (gone : ∀ key, (e.regionD region).memory.contains key = true → s.memory.contains key = false →
      s.known.contains key = false) : e.Fades (e.setRegion region s) where
  clock := rfl
  evictions := rfl
  stamps id tick hs := by
    rw [stamp?_setRegion] at hs
    split at hs
    · rename_i hregion
      rw [stamp?, ← hregion]
      exact stamps id.key tick hs
    · exact hs
  stays id hin := by
    rw [inMemory_setRegion] at hin
    split at hin
    · rename_i hregion
      rw [inMemory, ← hregion]
      exact memory id.key hin
    · exact hin
  known id hk := by
    rw [knows, regionD_setRegion] at hk
    split at hk
    · rename_i hregion
      rw [knows, ← hregion]
      exact known id.key hk
    · exact hk
  gone id hin hout := by
    rw [inMemory_setRegion] at hout
    rw [knows, regionD_setRegion]
    split at hout
    · rename_i hregion
      rw [if_pos hregion]
      rw [inMemory, ← hregion] at hin
      exact gone id.key hin hout
    · rw [hin] at hout
      cases hout

/-- Only the regions, the clock and the count of evictions matter. -/
theorem of_eq (h : e.Fades e') (regions : e''.regions = e'.regions) (clock : e''.clock = e'.clock)
    (evictions : e''.stats.evictions = e'.stats.evictions) : e.Fades e'' := by
  have hsame := regionD_of_regions regions
  refine ⟨clock.trans h.clock, evictions.trans h.evictions, ?_, ?_, ?_, ?_⟩ <;>
    simp only [Engine.stamp?, Engine.inMemory, isResident, Engine.knows, hsame]
  · exact h.stamps
  · exact h.stays
  · exact h.known
  · exact h.gone

theorem setResidentExpiry (e : Engine σ) (region key : String) (expiresAt : Option Nat) :
    e.Fades (e.setResidentExpiry region key expiresAt) := by
  obtain ⟨entry, hm, heq⟩ | ⟨-, heq⟩ := e.setResidentExpiry_cases region key expiresAt
  · rw [heq]
    have hin : (e.regionD region).memory.contains key = true := by
      rw [ExtTreeMap.contains_eq_isSome_getElem?, hm]
      rfl
    have hkeys (name : String) : ((e.regionD region).memory.insert key
        { entry with expiresAt }).contains name = (e.regionD region).memory.contains name := by
      rw [ExtTreeMap.contains_insert]
      by_cases hkey : key = name
      · rw [← hkey, hin, Bool.or_true]
      · simp [hkey]
    refine setRegion e (fun _ _ => id) (fun name hname => ?_) (fun _ => id) fun name hname hout => ?_
    · rwa [← hkeys]
    · rw [hkeys, hname] at hout
      cases hout
  · rw [heq]
    exact refl e

theorem clearRegion (e : Engine σ) (region : String) : e.Fades (e.clearRegion region) := by
  have hcleared : e.Fades (e.setRegion region .empty) := by
    refine setRegion e ?_ ?_ ?_ fun _ _ _ => ?_ <;> simp
  exact hcleared.of_eq rfl rfl rfl

end Fades

variable [Store σ] (now : Nat) (region key : String)

/-! ### Looking -/

theorem peek_still (e : Engine σ) : e.Still (e.peek now region key).2 := by
  unfold peek
  split <;> exact .withStore e _

theorem countLive_still (keys : List String) (e : Engine σ) :
    e.Still (e.countLive now region keys).2 := by
  induction keys generalizing e with
  | nil => exact .refl e
  | cons key rest ih =>
    rw [countLive]
    split
    · exact (e.peek_still now region key).trans (ih _)
    · exact ih e

theorem exists?_still (e : Engine σ) (keys : List String) :
    e.Still (e.exists? now region keys).2 := by
  unfold exists?
  split
  · exact e.countLive_still now region keys
  · exact .refl e

theorem filterLive_still (keys : List String) (e : Engine σ) :
    e.Still (e.filterLive now region keys).2 := by
  induction keys generalizing e with
  | nil => exact .refl e
  | cons key rest ih => exact (e.peek_still now region key).trans (ih _)

theorem keys_still (e : Engine σ) (pattern : String) : e.Still (e.keys now region pattern).2 := by
  unfold keys
  split
  · exact e.filterLive_still now region _
  · exact .refl e

theorem filterDead_still (keys : List String) (e : Engine σ) :
    e.Still (e.filterDead now region keys).2 := by
  induction keys generalizing e with
  | nil => exact .refl e
  | cons key rest ih => exact (e.peek_still now region key).trans (ih _)

theorem creationTime_still (e : Engine σ) : e.Still (e.creationTime region key).2 := by
  unfold creationTime
  dsimp only
  split
  · split
    · exact .refl e
    · split <;> exact .withStore e _
  · exact .refl e

/-! ### Removing -/

theorem removeKey_fades (e : Engine σ) : e.Fades (e.removeKey region key).2 := by
  have hdropped : e.Fades (e.setRegion region ⟨(e.regionD region).known.erase key,
      (e.regionD region).memory.erase key, (e.regionD region).lru.remove key⟩) := by
    refine Fades.setRegion e ?_ ?_ ?_ ?_
    · intro name tick hs
      rw [Lru.stamps_remove, Tree.get_erase] at hs
      split at hs
      · cases hs
      · exact hs
    · intro name hin
      rw [ExtTreeMap.contains_erase, Bool.and_eq_true] at hin
      exact hin.2
    · intro name hin
      rw [ExtTreeSet.contains_erase, Bool.and_eq_true] at hin
      exact hin.2
    · intro name hin hout
      rw [ExtTreeMap.contains_erase, hin, Bool.and_true] at hout
      rw [ExtTreeSet.contains_erase, hout, Bool.false_and]
  unfold removeKey
  dsimp only
  split <;> exact hdropped.of_eq rfl rfl rfl

theorem removeKeys_fades (keys : List String) (e : Engine σ) :
    e.Fades (e.removeKeys region keys).2 := by
  induction keys generalizing e with
  | nil => exact .refl e
  | cons key rest ih =>
    have hremoved := e.removeKey_fades region key
    unfold removeKeys
    split
    · rename_i heq
      rw [heq] at hremoved
      exact hremoved.trans ((Still.announce _ _ _ _ _).fades.trans (ih _))
    · rename_i heq
      rw [heq] at hremoved
      exact hremoved.trans (ih _)

theorem delete_fades (e : Engine σ) (keys : List String) : e.Fades (e.delete region keys).2 := by
  unfold delete
  split
  · exact e.removeKeys_fades region keys
  · exact .refl e

theorem expire_fades (e : Engine σ) (seconds : Int) :
    e.Fades (e.expire now region key seconds).2 := by
  unfold expire
  split
  · exact e.delete_fades region [key]
  split
  · exact .refl e
  have hpeek := (e.peek_still now region key).fades
  split
  · rename_i heq
    rwa [heq] at hpeek
  rename_i entry e₁ heq
  rw [heq] at hpeek
  apply hpeek.trans
  dsimp only
  split
  · exact (Still.withStore e₁ _).fades
  · exact (Still.withStore e₁ _).fades.trans
      ((Fades.setResidentExpiry _ _ _ _).trans (Still.announce _ _ _ _ _).fades)

theorem persist_fades (e : Engine σ) : e.Fades (e.persist now region key).2 := by
  unfold persist
  split
  · exact .refl e
  have hpeek := (e.peek_still now region key).fades
  split
  · rename_i heq
    rwa [heq] at hpeek
  rename_i entry e₁ heq
  rw [heq] at hpeek
  apply hpeek.trans
  split
  · exact (Still.withStore e₁ _).fades
  · exact (Still.withStore e₁ _).fades.trans
      ((Fades.setResidentExpiry _ _ _ _).trans (Still.announce _ _ _ _ _).fades)

theorem deleteRegion_fades (e : Engine σ) : e.Fades (e.deleteRegion region).2 := by
  unfold deleteRegion
  split
  · exact .refl e
  have hasked (store : σ) :
      e.Still { e.signal (.mutation (.deleteRegion region)) with store } :=
    ⟨fun _ => rfl, rfl, rfl, rfl, rfl⟩
  dsimp only
  split
  · exact (hasked _).fades
  · rename_i store _
    apply (hasked store).fades.trans
    dsimp only
    split
    · exact (Fades.clearRegion _ region).of_eq rfl rfl rfl
    · exact (Fades.refl _).of_eq rfl rfl rfl

theorem removeDead_fades (keys : List String) (e : Engine σ) :
    e.Fades (e.removeDead now region keys).2 := by
  induction keys generalizing e with
  | nil => exact .refl e
  | cons key rest ih =>
    have hpeek := (e.peek_still now region key).fades
    unfold removeDead
    split
    · rename_i heq
      rw [heq] at hpeek
      exact hpeek.trans (ih _)
    · rename_i e₁ heq
      rw [heq] at hpeek
      exact hpeek.trans ((e₁.removeKey_fades region key).trans (ih _))

theorem sweepRegions_fades (regions : List String) (e : Engine σ) :
    e.Fades (e.sweepRegions now regions).2 := by
  induction regions generalizing e with
  | nil => exact .refl e
  | cons region rest ih =>
    rw [sweepRegions]
    exact (e.filterDead_still now region _).fades.trans ((removeDead_fades now region _ _).trans (ih _))

theorem sweep_fades (e : Engine σ) : e.Fades (e.sweep now).2 :=
  (e.sweepRegions_fades now e.regions.keys).trans (Still.withStore _ _).fades

end Engine
end TierCache
