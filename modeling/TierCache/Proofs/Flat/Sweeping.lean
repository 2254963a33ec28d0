import TierCache.Proofs.Flat.Removing

/-!
The deletion of a region, the sweep of expired keys and the priming of memory. A sweep goes over the
known keys region by region; what it has removed so far are the rows it has gone over that are not
visible.
-/
namespace TierCache
open Std

namespace Flat

variable (f : Flat) (now : Nat)

/-- The rows without those in a part of the table that are not visible. -/
def sweepOver (part : RowId → Bool) : Flat := f.keep fun id row => !part id || row.isVisible now

theorem sweepOver_congr {part part' : RowId → Bool}
    (h : ∀ id row, f.rows[id]? = some row → row.isVisible now = false → part id = part' id) :
    f.sweepOver now part = f.sweepOver now part' := by
  apply f.keep_congr
  intro id row hrow
  cases hvisible : row.isVisible now with
  | true => simp
  | false => rw [h id row hrow hvisible]

theorem sweepOver_none {part : RowId → Bool} (h : ∀ id, part id = false) :
    f.sweepOver now part = f :=
  f.keep_all fun id row _ => by simp [h id]

theorem sweepOver_sweepOver (part part' : RowId → Bool) :
    (f.sweepOver now part).sweepOver now part' =
      f.sweepOver now fun id => part id || part' id := by
  rw [sweepOver, sweepOver, keep_keep]
  apply f.keep_congr
  intro id row _
  cases row.isVisible now <;> simp

/-- A row that is not visible is removed along with those of its part. -/
theorem erase_sweepOver {region key : String} (h : f.visible? now region key = none)
    (part : RowId → Bool) : (f.erase region key).sweepOver now part =
      f.sweepOver now fun id => decide (id = ⟨region, key⟩) || part id := by
  rw [sweepOver, erase_keep]
  apply f.keep_congr
  intro id row hrow
  by_cases hid : id = ⟨region, key⟩
  · subst hid
    have hvisible : row.isVisible now = false := by
      simpa [visible?, row?, hrow, Option.filter_some] using h
    simp [hvisible]
  · simp [hid]

theorem size_erase (region key : String) : (f.erase region key).rows.size +
    (if (f.row? region key).isSome then 1 else 0) = f.rows.size := by
  simp only [erase, ExtTreeMap.size_erase, f.contains_rows]
  cases hrow : (f.row? region key).isSome with
  | false => simp
  | true =>
    have hmem : (⟨region, key⟩ : RowId) ∈ f.rows := by
      rw [← ExtTreeMap.contains_iff_mem, f.contains_rows, hrow]
    have hpos : f.rows.size ≠ 0 := by
      intro hzero
      rw [ExtTreeMap.eq_empty_iff_size_eq_zero.mpr hzero] at hmem
      simp at hmem
    simp only [if_true]
    omega

end Flat

namespace Mirrors

variable {σ : Type} {stands : σ → Table → Prop} {e : Engine σ} {f : Flat}

theorem clearRegion (h : Mirrors stands e f) {region : String} {store : σ}
    (stored : ∃ t, stands store t ∧ t.Holds (f.keep fun id _ => id.region ≠ region).rows) :
    Mirrors stands ({ e with store }.clearRegion region)
      (f.keep fun id _ => id.region ≠ region) := by
  have hcleared : Mirrors stands ({ e with store }.setRegion region .empty)
      (f.keep fun id _ => id.region ≠ region) := by
    apply h.rewrite stored
    · intro id hid
      rw [Flat.keep, ExtTreeMap.getElem?_filter']
      cases f.rows[id]? <;> simp [hid]
    · intro key
      rw [Flat.keep, ExtTreeMap.getElem?_filter']
      cases f.rows[RowId.mk region key]? <;> simp
    · simp
  exact ⟨hcleared.stored, hcleared.known, hcleared.copied, hcleared.defaultRegion,
    hcleared.hits, hcleared.misses, hcleared.told⟩

theorem primeEntry (h : Mirrors stands e f) {entry : Entry}
    (hcopy : entry.Copies f.rows entry.region entry.key) : Mirrors stands (e.primeEntry entry) f := by
  have h₁ := h.ensureRegion entry.region
  have hknown : Mirrors stands ((e.ensureRegion entry.region).setRegion entry.region
      { (e.ensureRegion entry.region).regionD entry.region with
        known := ((e.ensureRegion entry.region).regionD entry.region).known.insert entry.key })
      f := by
    apply h₁.setRegion
    · intro key
      rw [ExtTreeSet.contains_insert, h₁.known]
      by_cases hkey : entry.key = key
      · subst hkey
        simp [Flat.row?, hcopy.ofRow]
      · simp [hkey]
    · intro key copy hm
      exact h₁.copied hm
  have hprimed : ({ entry with resident := true } : Entry).Copies f.rows entry.region entry.key :=
    ⟨rfl, rfl, hcopy.ofRow⟩
  have htry := hknown.tryReserve
  unfold Engine.primeEntry
  dsimp only
  split
  · rename_i heq
    rw [heq] at htry
    exact htry.install hprimed true
  · rename_i heq
    rwa [heq] at htry

theorem primeEntries (entries : List Entry) (h : Mirrors stands e f)
    (hcopies : ∀ entry ∈ entries, entry.Copies f.rows entry.region entry.key) :
    Mirrors stands (entries.foldl Engine.primeEntry e) f := by
  induction entries generalizing e with
  | nil => exact h
  | cons entry rest ih =>
    exact ih (h.primeEntry (hcopies entry (.head rest)))
      (fun other hother => hcopies other (.tail entry hother))

section
variable [Store σ] (reliable : Reliable stands)
include reliable

theorem filterDead (h : Mirrors stands e f) (now : Nat) (region : String) (keys : List String) :
    ∃ s, e.filterDead now region keys =
        (keys.filter fun key => !(f.visible? now region key).isSome, { e with store := s }) ∧
      Mirrors stands { e with store := s } f := by
  induction keys generalizing e with
  | nil => exact ⟨e.store, rfl, h⟩
  | cons key rest ih =>
    obtain ⟨found, s, hpeek, hfound, hm⟩ := h.peek reliable now region key
    obtain ⟨s', heq, hm'⟩ := ih hm
    refine ⟨s', ?_, hm'⟩
    simp only [Engine.filterDead, hpeek, heq, hfound.isSome, List.filter_cons]
    cases (f.visible? now region key).isSome <;> rfl

/-- Whatever the keys are, those rows of theirs go that are not visible, and are counted. -/
theorem removeDead (h : Mirrors stands e f) (now : Nat) (region : String) (keys : List String) :
    (e.removeDead now region keys).1 +
        (f.sweepOver now fun id => id.region = region && keys.contains id.key).rows.size =
      f.rows.size ∧
    Mirrors stands (e.removeDead now region keys).2
      (f.sweepOver now fun id => id.region = region && keys.contains id.key) := by
  induction keys generalizing e f with
  | nil =>
    rw [f.sweepOver_none now (by simp)]
    exact ⟨Nat.zero_add _, h⟩
  | cons key rest ih =>
    obtain ⟨found, s, hpeek, hfound, hm⟩ := h.peek reliable now region key
    rw [Engine.removeDead, hpeek]
    cases found with
    | some entry =>
      have hsame : (f.sweepOver now fun id => id.region = region && (key :: rest).contains id.key) =
          f.sweepOver now fun id => id.region = region && rest.contains id.key := by
        apply f.sweepOver_congr
        rintro ⟨home, name⟩ row hrow hvisible
        have hne : ¬(home = region ∧ name = key) := by
          rintro ⟨rfl, rfl⟩
          have hseen := hfound.visible
          simp [Flat.visible?, Flat.row?, hrow, Option.filter_some, hvisible] at hseen
        by_cases hhome : home = region
        · simp [hhome, show name ≠ key from fun heq => hne ⟨hhome, heq⟩]
        · simp [hhome]
      rw [hsame]
      exact ih hm
    | none =>
      obtain ⟨hwas, hremoved⟩ := hm.removeKey reliable region key
      obtain ⟨hcount, hrest⟩ := ih hremoved
      have hsame : (f.sweepOver now fun id => id.region = region && (key :: rest).contains id.key) =
          (f.erase region key).sweepOver now
            fun id => id.region = region && rest.contains id.key := by
        rw [f.erase_sweepOver now hfound.invisible]
        congr 1
        funext id
        obtain ⟨home, name⟩ := id
        by_cases hhome : home = region
        · simp [hhome]
        · simp [hhome]
      have hsize := f.size_erase region key
      rw [hsame]
      simp only [hwas]
      refine ⟨?_, hrest⟩
      omega

theorem sweepRegions (h : Mirrors stands e f) (now : Nat) (regions : List String) :
    (e.sweepRegions now regions).1 +
        (f.sweepOver now fun id => regions.contains id.region).rows.size = f.rows.size ∧
    Mirrors stands (e.sweepRegions now regions).2
      (f.sweepOver now fun id => regions.contains id.region) := by
  induction regions generalizing e f with
  | nil =>
    rw [f.sweepOver_none now (by simp)]
    exact ⟨Nat.zero_add _, h⟩
  | cons region rest ih =>
    obtain ⟨s, hdead, hm⟩ := h.filterDead reliable now region (e.regionD region).known.toList
    obtain ⟨hcount, hremoved⟩ := hm.removeDead reliable now region
      ((e.regionD region).known.toList.filter fun key => !(f.visible? now region key).isSome)
    -- every row of the region that is not visible has a known key
    have hregion : (f.sweepOver now fun id => id.region = region &&
        ((e.regionD region).known.toList.filter fun key =>
          !(f.visible? now region key).isSome).contains id.key) =
        f.sweepOver now fun id => id.region = region := by
      apply f.sweepOver_congr
      rintro ⟨home, name⟩ row hrow hvisible
      by_cases hhome : home = region
      · subst hhome
        have hknown : name ∈ (e.regionD home).known := by
          rw [← ExtTreeSet.contains_iff_mem, h.known, Flat.row?, hrow]
          rfl
        simp [hknown, Flat.visible?, Flat.row?, hrow, hvisible]
      · simp [hhome]
    rw [hregion] at hcount hremoved
    obtain ⟨hcounts, hrest⟩ := ih hremoved
    have hsame : (f.sweepOver now fun id => (region :: rest).contains id.region) =
        (f.sweepOver now fun id => id.region = region).sweepOver now
          fun id => rest.contains id.region := by
      rw [f.sweepOver_sweepOver]
      congr 1
    simp only [Engine.sweepRegions, hdead, hsame]
    refine ⟨?_, hrest⟩
    omega

theorem sweep (now : Nat) : Simulates stands (·.sweep now) (·.sweep now) := by
  intro e f h
  obtain ⟨hcount, hm⟩ := h.sweepRegions reliable now e.regions.keys
  -- no row lies outside the regions there are
  have hall : (f.sweepOver now fun id => e.regions.keys.contains id.region) =
      f.keep fun _ row => row.isVisible now := by
    apply f.keep_congr
    intro id row hrow
    cases hregion : e.region? id.region with
    | none =>
      have hnone := h.row_none hregion id.key
      rw [Flat.row?, hrow] at hnone
      cases hnone
    | some s =>
      have hmem : id.region ∈ e.regions := by
        rw [ExtTreeMap.mem_iff_isSome_getElem?, show e.regions[id.region]? = some s from hregion]
        rfl
      simp [hmem]
  rw [hall] at hcount hm
  obtain ⟨t, hstands, holds⟩ := hm.stored
  obtain ⟨s, hexpired, hs⟩ := reliable.deleteExpired hstands now
  have hkept := holds.eraseExpired now
  have htwice : (f.keep fun _ row => row.isVisible now).keep (fun _ row => row.isVisible now) =
      f.keep fun _ row => row.isVisible now := by
    rw [f.keep_keep]
    simp only [Bool.and_self]
  have hrows : ((f.keep fun _ row => row.isVisible now).rows.filter
      fun _ row => row.isVisible now) = (f.keep fun _ row => row.isVisible now).rows :=
    congrArg Flat.rows htwice
  rw [hrows] at hkept
  simp only [Engine.sweep, Flat.sweep, hexpired]
  refine ⟨?_, hm.withStore ⟨_, hs, hkept⟩⟩
  omega

/-! ### Regions -/

theorem deleteRegion (region : String) :
    Simulates stands (·.deleteRegion region) (·.deleteRegion region) := by
  intro e f h
  by_cases hdefault : region = f.defaultRegion
  · simp only [Engine.deleteRegion, Flat.deleteRegion, h.defaultRegion, if_pos hdefault]
    exact ⟨trivial, h⟩
  · have h₁ := h.signal (.mutation (.deleteRegion region))
    obtain ⟨t, hstands, holds⟩ := h₁.stored
    obtain ⟨s, hdelete, hs⟩ := reliable.deleteRegion hstands region
    have stored := holds.eraseRegion region
    have h₂ : Mirrors stands (if (e.region? region).isSome
          then { e.signal (.mutation (.deleteRegion region)) with store := s }.clearRegion region
          else { e.signal (.mutation (.deleteRegion region)) with store := s })
        ((f.keep fun id _ => id.region ≠ region).tell [.deleteRegion region]) := by
      split
      · exact h₁.clearRegion ⟨_, hs, stored⟩
      · rename_i hregion
        have hnone : e.region? region = none := by simpa using hregion
        have hkeep : (f.keep fun id _ => id.region ≠ region) = f := by
          apply f.keep_all
          rintro ⟨home, key⟩ row hrow
          have hne : home ≠ region := by
            rintro rfl
            have hno := h.row_none hnone key
            rw [Flat.row?, hrow] at hno
            cases hno
          simpa using hne
        rw [hkeep]
        have hrows : (f.rows.filter fun id _ => id.region ≠ region) = f.rows :=
          congrArg Flat.rows hkeep
        rw [show (f.tell [(Signal.mutation (.deleteRegion region)).notice]).rows = f.rows from rfl,
          hrows] at stored
        exact h₁.withStore ⟨_, hs, stored⟩
    have h₃ := h₂.signal (.change region "*" .deleteRegion)
    simp only [Engine.deleteRegion, Flat.deleteRegion, h.defaultRegion, if_neg hdefault, hdelete]
    simp only [Flat.tell, List.append_assoc] at h₃
    exact ⟨trivial, h₃⟩

theorem prime (now : Nat) : Simulates stands (·.prime now)
    (fun f => (.ok (f.keep fun _ row => row.isVisible now).rows.size, f)) := by
  intro e f h
  obtain ⟨t, hstands, holds⟩ := h.stored
  obtain ⟨entries, s, hload, hperm, hs⟩ := reliable.loadAll hstands
  have hcount : (entries.filter (!·.isExpired now)).length =
      (f.keep fun _ row => row.isVisible now).rows.size := by
    rw [(hperm.filter _).length_eq, holds.length_live]
    rfl
  simp only [Engine.prime, hload, hcount]
  refine ⟨trivial, ?_⟩
  apply (h.withStore ⟨t, hs, holds⟩).primeEntries
  intro entry hentry
  obtain ⟨id, hid⟩ := (t.mem_entries entry).mp (hperm.subset (List.mem_filter.mp hentry).1)
  obtain ⟨hregion, hkey⟩ := holds.named hid
  have hrow := holds.rows id
  rw [hid] at hrow
  refine ⟨rfl, rfl, ?_⟩
  rw [hregion, hkey]
  exact hrow.symm

end
end Mirrors
end TierCache
