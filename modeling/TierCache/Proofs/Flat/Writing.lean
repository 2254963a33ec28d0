import TierCache.Proofs.Engine.Memory
import TierCache.Proofs.Flat.Reading

/-! Writes to an engine that mirrors a flat cache put the same row in the same place. -/
namespace TierCache
open Std

namespace Mirrors

variable {σ : Type} {stands : σ → Table → Prop} {e : Engine σ} {f : Flat}

/-- A row put in its place in the store is mirrored once the key is known and no copy in memory is
of an older row. -/
theorem place (h : Mirrors stands e f) {region key : String} {row : Row} {store : σ} {s : Region}
    (stored : ∃ t, stands store t ∧ t.Holds (f.place region key row).rows)
    (known : s.known = (e.regionD region).known.insert key)
    (fresh : ∀ entry, s.memory[key]? = some entry →
      entry.region = region ∧ entry.key = key ∧ entry.row = row)
    (others : ∀ other entry, key ≠ other → s.memory[other]? = some entry →
      (e.regionD region).memory[other]? = some entry) :
    Mirrors stands ({ e with store }.setRegion region s) (f.place region key row) := by
  apply h.rewrite stored
  · intro id hid
    rw [Flat.place, Tree.get_insert, if_neg (by rintro rfl; exact hid rfl)]
  · intro other
    have hold := h.known region other
    rw [known, ExtTreeSet.contains_insert, Flat.place, Tree.get_insert, hold, Flat.row?]
    by_cases hkey : key = other
    · simp [hkey]
    · simp [hkey]
  · intro other entry hm
    by_cases hkey : key = other
    · subst hkey
      obtain ⟨hregion, hname, hrow⟩ := fresh entry hm
      exact ⟨hregion, hname, by simp [Flat.place, hrow]⟩
    · apply (h.copied (others other entry hkey hm)).of_agree
      rw [Flat.place, Tree.get_insert, if_neg (by simp [hkey])]

/-- The entry that is written goes to the store and to memory. -/
theorem store (h : Mirrors stands e f) {region key : String} {row : Row} {store : σ}
    (stored : ∃ t, stands store t ∧ t.Holds (f.place region key row).rows) {entry : Entry}
    (hregion : entry.region = region) (hkey : entry.key = key) (hrow : entry.row = row) :
    Mirrors stands (({ e with store }.setRegion region { e.regionD region with
      known := (e.regionD region).known.insert key }).hold region key entry)
      (f.place region key row) := by
  have hplaced : Mirrors stands ({ e with store }.setRegion region {
      known := (e.regionD region).known.insert key,
      memory := (e.regionD region).memory.insert key entry,
      lru := (e.regionD region).lru.touch key (e.clock + 1) })
      (f.place region key row) := by
    apply h.place stored rfl
    · intro copy hm
      simp only [Tree.get_insert, if_true, Option.some.injEq] at hm
      exact hm ▸ ⟨hregion, hkey, hrow⟩
    · intro other copy hne hm
      rwa [Tree.get_insert, if_neg hne] at hm
  simp only [Engine.hold, Engine.regionD_setRegion_self, Engine.setRegion_setRegion]
  exact ⟨hplaced.stored, hplaced.known, hplaced.copied, hplaced.defaultRegion, hplaced.hits,
    hplaced.misses, hplaced.told⟩

theorem storeInstall (h : Mirrors stands e f) {region key : String} {row : Row} {store : σ}
    (stored : ∃ t, stands store t ∧ t.Holds (f.place region key row).rows) {entry : Entry}
    (hregion : entry.region = region) (hkey : entry.key = key) (hrow : entry.row = row)
    {reserved : Bool} (hslot : reserved = true ∨ e.isResident region key = true) :
    Mirrors stands (({ e with store }.setRegion region { e.regionD region with
      known := (e.regionD region).known.insert key }).install region entry reserved).2
      (f.place region key row) := by
  have hheld := h.store stored hregion hkey hrow
  subst hkey
  unfold Engine.install
  rw [Engine.regionD_setRegion_self]
  split
  · dsimp only
    split
    · exact hheld.release
    · exact hheld
  · rename_i hout
    have hreserved : reserved = true := hslot.resolve_right hout
    rw [if_pos hreserved]
    exact hheld

section
variable [Store σ] (reliable : Reliable stands)
include reliable

theorem creationTime (h : Mirrors stands e f) (region key : String) :
    ∃ s, e.creationTime region key =
        ((f.row? region key).map (·.createdAt), { e with store := s }) ∧
      Mirrors stands { e with store := s } f := by
  have hknown := h.known region key
  cases hrow : f.row? region key with
  | none =>
    rw [hrow] at hknown
    refine ⟨e.store, ?_, h⟩
    simp only [Engine.creationTime, hknown, Option.isSome_none, Bool.false_eq_true, if_false,
      Option.map_none]
  | some row =>
    rw [hrow] at hknown
    cases hmem : (e.regionD region).memory[key]? with
    | some entry =>
      have hcopy := (h.copied hmem).ofRow
      rw [show f.rows[RowId.mk region key]? = some row from hrow] at hcopy
      cases hcopy
      refine ⟨e.store, ?_, h⟩
      simp only [Engine.creationTime, hknown, hmem, Option.isSome_some, if_true]
      rfl
    | none =>
      obtain ⟨t, hstands, holds⟩ := h.stored
      obtain ⟨s, hload, hs⟩ := reliable.load hstands region key
      have hstored := holds.rows ⟨region, key⟩
      rw [show f.rows[RowId.mk region key]? = some row from hrow] at hstored
      obtain ⟨entry, hentry, rfl⟩ := Option.map_eq_some_iff.mp hstored
      refine ⟨s, ?_, h.withStore ⟨t, hs, holds⟩⟩
      rw [show t.get? region key = some entry from hentry] at hload
      simp only [Engine.creationTime, hknown, hmem, hload, Option.isSome_some, if_true]
      rfl

/-- A row is saved and the key known; memory has no older copy afterwards, since one without a slot
was not in memory. -/
theorem saveRow (h : Mirrors stands e f) (row : Entry) {hasSlot claimed : Bool}
    (hslot : hasSlot = true → claimed = true ∨ e.isResident row.region row.key = true)
    (hout : hasSlot = false → e.isResident row.region row.key = false) :
    ∃ written, (e.saveRow row hasSlot claimed).1 = .ok written ∧
      written.region = row.region ∧ written.key = row.key ∧ written.row = row.row ∧
      Mirrors stands (e.saveRow row hasSlot claimed).2 (f.place row.region row.key row.row) := by
  obtain ⟨t, hstands, holds⟩ := h.stored
  obtain ⟨s, hsave, hs⟩ := reliable.save hstands row
  have stored : ∃ t, stands s t ∧ t.Holds (f.place row.region row.key row.row).rows :=
    ⟨_, hs, holds.save row⟩
  simp only [Engine.saveRow, hsave]
  cases hasSlot with
  | true =>
    refine ⟨_, rfl, rfl, rfl, rfl, ?_⟩
    refine h.storeInstall stored ?_ ?_ ?_ (hslot rfl) <;> rfl
  | false =>
    refine ⟨_, rfl, rfl, rfl, rfl, h.place stored rfl ?_ ?_⟩
    · intro copy hm
      have hnone := ExtTreeMap.getElem?_eq_none_of_contains_eq_false (hout rfl)
      rw [show (e.regionD row.region).memory[row.key]? = some copy from hm] at hnone
      cases hnone
    · intro other copy _ hm
      exact hm

theorem writeThrough (h : Mirrors stands e f) (entry : Entry) :
    ∃ written, (e.writeThrough entry).1 = .ok written ∧
      written.region = entry.region ∧ written.key = entry.key ∧
      written.row = f.succeed entry.region entry.key entry.row ∧
      Mirrors stands (e.writeThrough entry).2 (f.place entry.region entry.key
        (f.succeed entry.region entry.key entry.row)) := by
  obtain ⟨s, hcreated, h₁⟩ := h.creationTime reliable entry.region entry.key
  simp only [Engine.writeThrough, hcreated]
  cases hwas : ({ e with store := s } : Engine σ).isResident entry.region entry.key with
  | true =>
    exact h₁.saveRow reliable _ (fun _ => .inr hwas) (fun hnone => by cases hnone)
  | false =>
    have h₂ := h₁.reserve
    have hshrinks := ({ e with store := s } : Engine σ).shrinks_reserve
    cases hreserve : ({ e with store := s } : Engine σ).reserve with
    | mk granted e₂ =>
      rw [hreserve] at h₂ hshrinks
      simp only [Bool.false_eq_true, if_false, Bool.not_false, Bool.and_true]
      refine h₂.saveRow reliable _ .inl ?_
      intro _
      cases hres : (e₂.regionD entry.region).memory[entry.key]? with
      | none =>
        exact ExtTreeMap.contains_eq_isSome_getElem?.trans (by rw [hres]; rfl)
      | some copy =>
        have hold := hshrinks _ _ _ hres
        have hnone := ExtTreeMap.getElem?_eq_none_of_contains_eq_false hwas
        rw [hold] at hnone
        cases hnone

theorem put (h : Mirrors stands e f) (entry : Entry) :
    (e.put entry).1 = .ok () ∧ Mirrors stands (e.put entry).2
      ((f.place entry.region entry.key (f.succeed entry.region entry.key entry.row)).tell
        [.set entry.region entry.key entry.value entry.expiresAt,
          .change entry.region entry.key .set]) := by
  obtain ⟨written, hok, hregion, hkey, hrow, hm⟩ :=
    (h.ensureRegion entry.region).writeThrough reliable entry
  rw [Engine.put]
  cases hwrite : (e.ensureRegion entry.region).writeThrough entry with
  | mk reply e' =>
    rw [hwrite] at hok hm
    subst hok
    have htold := hm.announce (.set written) written.region written.key .set
    have hvalue : written.value = entry.value := congrArg Row.value hrow
    have hexpiry : written.expiresAt = entry.expiresAt := congrArg Row.expiresAt hrow
    simp only [Mutation.notice, hregion, hkey, hvalue, hexpiry] at htold
    simp only [hregion, hkey]
    exact ⟨trivial, htold⟩

theorem setValue (now : Nat) (region key : String) (value : Value) (expiresAt : Option Nat) :
    Simulates stands (·.setValue now region key value expiresAt)
      (fun f => (.ok (), f.write now region key value expiresAt)) := by
  intro e f h
  exact h.put reliable (.create now region key value expiresAt)

end
end Mirrors
end TierCache
