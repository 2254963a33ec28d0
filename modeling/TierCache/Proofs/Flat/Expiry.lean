import TierCache.Proofs.Flat.Removing

/-! Changes of expiry on an engine that mirrors a flat cache reach the store and the copy in memory. -/
namespace TierCache
open Std

namespace Mirrors

variable {σ : Type} {stands : σ → Table → Prop} {e : Engine σ} {f : Flat}

/-- The expiry set in the store is set on the copy in memory, if there is one. -/
theorem setExpiry (h : Mirrors stands e f) {region key : String} {row : Row}
    (hrow : f.row? region key = some row) {expiresAt : Option Nat} {store : σ}
    (stored : ∃ t, stands store t ∧ t.Holds (f.place region key { row with expiresAt }).rows) :
    Mirrors stands ({ e with store }.setResidentExpiry region key expiresAt)
      (f.place region key { row with expiresAt }) := by
  have hknown : ExtTreeSet.insert (e.regionD region).known key = (e.regionD region).known := by
    apply ExtTreeSet.ext_mem
    intro other
    rw [ExtTreeSet.mem_insert, Std.compare_eq_iff_eq, ← ExtTreeSet.contains_iff_mem]
    constructor
    · rintro (rfl | hother)
      · rw [h.known, hrow]
        rfl
      · exact hother
    · exact .inr
  unfold Engine.setResidentExpiry
  dsimp only
  split
  · rename_i entry hmem
    have hcopy := h.copied hmem
    have hold : some entry.row = some row := hcopy.ofRow.symm.trans hrow
    cases hold
    refine h.place stored ?_ ?_ ?_
    · exact hknown.symm
    · intro copy hm
      simp only [Tree.get_insert, if_true, Option.some.injEq] at hm
      subst hm
      exact ⟨hcopy.ofRegion, hcopy.ofKey, rfl⟩
    · intro other copy hne hm
      rwa [Tree.get_insert, if_neg hne] at hm
  · rename_i hmem
    have hplaced : (e.regionD region).memory[key]? = none := hmem
    refine ⟨stored, ?_, ?_, h.defaultRegion, h.hits, h.misses, h.told⟩
    · intro other name
      rw [f.row?_place]
      split
      · rename_i heq
        cases heq
        exact (h.known region key).trans (by rw [hrow]; rfl)
      · exact h.known other name
    · intro other name entry hm
      have hcopy := h.copied hm
      apply hcopy.of_agree
      rw [Flat.place, Tree.get_insert, if_neg]
      rintro heq
      cases heq
      rw [show (e.regionD region).memory[key]? = some entry from hm] at hplaced
      cases hplaced

section
variable [Store σ] (reliable : Reliable stands)
include reliable

theorem updateExpiry (h : Mirrors stands e f) {region key : String} {row : Row}
    (hrow : f.row? region key = some row) (expiresAt : Option Nat) :
    ∃ s, Store.updateExpiry region key expiresAt e.store = (.ok (), s) ∧
      Mirrors stands ({ e with store := s }.setResidentExpiry region key expiresAt)
        (f.place region key { row with expiresAt }) := by
  obtain ⟨t, hstands, holds⟩ := h.stored
  obtain ⟨s, hupdate, hs⟩ := reliable.updateExpiry hstands region key expiresAt
  exact ⟨s, hupdate, h.setExpiry hrow ⟨_, hs, holds.setExpiry hrow expiresAt⟩⟩

theorem expire (now : Nat) (region key : String) (seconds : Int) :
    Simulates stands (·.expire now region key seconds) (·.expire now region key seconds) := by
  intro e f h
  by_cases hseconds : seconds ≤ 0
  · obtain ⟨hcount, hm⟩ := delete reliable region [key] h
    simp only [Engine.expire, Flat.expire, if_pos hseconds]
    exact ⟨congrArg (fun n : Nat => Except.ok (decide (0 < n))) hcount, hm⟩
  · cases hregion : e.region? region with
    | none =>
      have hrow := h.row_none hregion key
      simp only [Engine.expire, Flat.expire, if_neg hseconds, hregion,
        Flat.visible?_of_row_none hrow]
      exact ⟨trivial, h⟩
    | some state =>
      obtain ⟨found, s, hpeek, hfound, hm⟩ := h.peek reliable now region key
      simp only [Engine.expire, Flat.expire, if_neg hseconds, hregion, hpeek]
      cases found with
      | none =>
        rw [hfound.invisible]
        exact ⟨rfl, hm⟩
      | some entry =>
        obtain ⟨s', hupdate, hset⟩ := hm.updateExpiry reliable hfound.copies.ofRow
          (some (Engine.secondsAfter now seconds.toNat))
        rw [hfound.visible]
        simp only [hupdate]
        exact ⟨trivial, hset.announce _ _ _ _⟩

theorem persist (now : Nat) (region key : String) :
    Simulates stands (·.persist now region key) (·.persist now region key) := by
  intro e f h
  cases hregion : e.region? region with
  | none =>
    have hrow := h.row_none hregion key
    simp only [Engine.persist, Flat.persist, hregion, Flat.visible?_of_row_none hrow]
    exact ⟨trivial, h⟩
  | some state =>
    obtain ⟨found, s, hpeek, hfound, hm⟩ := h.peek reliable now region key
    simp only [Engine.persist, Flat.persist, hregion, hpeek]
    cases found with
    | none =>
      rw [hfound.invisible]
      exact ⟨rfl, hm⟩
    | some entry =>
      obtain ⟨s', hupdate, hset⟩ := hm.updateExpiry reliable hfound.copies.ofRow none
      have htold := hset.announce (.set { entry with expiresAt := none }) region key .persist
      have hnotice : (Mutation.set { entry with expiresAt := none }).notice =
          .set region key entry.value none := by
        simp only [Mutation.notice, hfound.copies.ofRegion, hfound.copies.ofKey]
      rw [hnotice] at htold
      rw [hfound.visible]
      simp only [hupdate]
      exact ⟨trivial, htold⟩

end
end Mirrors
end TierCache
