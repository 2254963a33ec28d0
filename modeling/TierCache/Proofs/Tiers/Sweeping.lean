import TierCache.Proofs.Tiers.Removing

/-!
The sweep and priming in both tiers. A sweep removes the known keys that are not seen; the rows that it
purges then are of no key that is in memory, unless the key is spared.
-/
namespace TierCache
open Std

namespace Engine

variable {σ : Type} (e : Engine σ)

/-- What priming makes known. -/
theorem known_primeEntry (entry : Entry) (region key : String) :
    ((e.primeEntry entry).regionD region).known.contains key = true ↔
      entry.region = region ∧ entry.key = key ∨ (e.regionD region).known.contains key = true := by
  have hknown := (e.ensureRegion entry.region).known_know entry.region entry.key region key
  rw [e.regionD_ensureRegion] at hknown
  rw [← hknown, ← Bool.eq_iff_iff]
  unfold primeEntry
  dsimp only
  have htry := ((e.ensureRegion entry.region).know entry.region entry.key).regions_tryReserve
  unfold know at htry ⊢
  split
  · rename_i heq
    rw [heq] at htry
    rw [known_install, regionD_of_regions htry]
  · rename_i heq
    rw [heq] at htry
    rw [regionD_of_regions htry]

theorem known_primeEntries (entries : List Entry) (region key : String) :
    ((entries.foldl primeEntry e).regionD region).known.contains key = true ↔
      (∃ entry ∈ entries, entry.region = region ∧ entry.key = key) ∨
        (e.regionD region).known.contains key = true := by
  induction entries generalizing e with
  | nil => simp
  | cons entry rest ih =>
    simp only [List.foldl_cons, ih, known_primeEntry, List.exists_mem_cons_iff]
    rw [or_assoc, or_left_comm]

end Engine

namespace Tiers

variable {σ : Type} {picky : Prop} {stands : σ → Table → Prop} {spared : String → String → Prop}
  {since : Nat} {e : Engine σ} {t : Table}

/-- A row that is there is made known, and resident if a slot is free. -/
theorem primeEntry (h : Tiers picky stands spared since e t) {entry : Entry}
    (hrow : t.get? entry.region entry.key = some entry) (hfits : entry.Fits picky) :
    Tiers picky stands spared since (e.primeEntry entry) t := by
  have hknown := (h.ensureRegion entry.region).know entry.region entry.key
  have htry := hknown.tryReserve
  have hcell : (((e.ensureRegion entry.region).know entry.region entry.key).tryReserve.2.cell t
      entry.region entry.key).known = true := by
    rw [Engine.cell_congr (Engine.regionD_of_regions (Engine.regions_tryReserve _) _),
      Engine.cell_know, if_pos ⟨rfl, rfl⟩]
  unfold Engine.know at htry hcell
  unfold Engine.primeEntry
  dsimp only
  split
  · rename_i e₁ heq
    rw [heq] at htry hcell
    have hlearned := (htry.cells entry.region entry.key).promoted hrow fun _ => hcell
    have hplaced : ({ entry with resident := true } : Entry).Filed picky entry.region entry.key :=
      ⟨rfl, rfl, hfits.placed true⟩
    exact htry.install hplaced hlearned true
  · rename_i heq
    rwa [heq] at htry

theorem primeEntries (entries : List Entry) (h : Tiers picky stands spared since e t)
    (hrows : ∀ entry ∈ entries, t.get? entry.region entry.key = some entry ∧ entry.Fits picky) :
    Tiers picky stands spared since (entries.foldl Engine.primeEntry e) t := by
  induction entries generalizing e with
  | nil => exact h
  | cons entry rest ih =>
    obtain ⟨hrow, hfits⟩ := hrows entry (.head rest)
    exact ih (h.primeEntry hrow hfits) fun other hother => hrows other (.tail entry hother)

/-- Nothing is spared any more once all that was is listed. -/
theorem unspared (h : Tiers picky stands spared since e t)
    (hlisted : ∀ region key, spared region key → (e.cell t region key).Listed since) :
    Tiers picky stands (fun _ _ => False) since e t :=
  ⟨h.stored, h.named, h.filed, fun region key => ⟨(h.cells region key).agrees,
    .inr ((h.cells region key).listed.elim (hlisted region key) id)⟩⟩

variable [Store σ] (dependable : Dependable picky stands)
include dependable

/-- The rows that are not expired are known afterwards, and what was known still is. -/
theorem prime (h : Tiers picky stands spared since e t) (now : Nat) :
    ∃ (entries : List Entry) (s : σ),
      e.prime now = (.ok entries.length, entries.foldl Engine.primeEntry { e with store := s }) ∧
      stands s t ∧ Tiers picky stands spared since (e.prime now).2 t ∧
      entries.Perm (t.entries.filter (!·.isExpired now)) ∧
      ∀ entry, entry ∈ entries ↔
        t.get? entry.region entry.key = some entry ∧ entry.isExpired now = false := by
  obtain ⟨rows, s, hload, hperm, hs⟩ := dependable.loadAll h.stored
  have hmem (entry : Entry) : entry ∈ rows.filter (!·.isExpired now) ↔
      t.get? entry.region entry.key = some entry ∧ entry.isExpired now = false := by
    rw [List.mem_filter, hperm.mem_iff, t.mem_entries, Bool.not_eq_true']
    refine and_congr_left fun _ => ⟨?_, fun hrow => ⟨_, hrow⟩⟩
    rintro ⟨id, hid⟩
    obtain ⟨hregion, hkey⟩ := h.named id entry hid
    rw [Table.get?, hregion, hkey]
    exact hid
  have hprime : e.prime now = (.ok (rows.filter (!·.isExpired now)).length,
      (rows.filter (!·.isExpired now)).foldl Engine.primeEntry { e with store := s }) := by
    simp only [Engine.prime, hload]
  refine ⟨rows.filter (!·.isExpired now), s, hprime, hs, ?_, hperm.filter _, hmem⟩
  rw [hprime]
  apply (h.withStore hs).primeEntries
  intro entry hentry
  have hrow := ((hmem entry).mp hentry).1
  exact ⟨hrow, dependable.fits h.stored hrow⟩

/-- A fresh engine that is primed knows the rows that are not expired, and spares none. -/
theorem primed {store : σ} (hstore : stands store t) (named : t.Named) (capacity : Nat)
    (defaultRegion : String) (now : Nat) :
    Tiers picky stands (fun _ _ => False) now
        ((Engine.fresh store capacity defaultRegion).prime now).2 t ∧
      ∀ region key,
        ((((Engine.fresh store capacity defaultRegion).prime now).2.regionD region).known.contains key =
          true ↔ ∃ entry, t.get? region key = some entry ∧ entry.isExpired now = false) := by
  -- the rows that are to be seen are spared until they are primed
  have hfresh : Tiers picky stands (fun region key =>
      ∃ entry, t.get? region key = some entry ∧ entry.isExpired now = false) now
      (Engine.fresh store capacity defaultRegion) t := by
    refine .fresh hstore named (fun region key entry hrow => ?_) _ _
    cases hexpired : entry.isExpired now with
    | true => exact .inl rfl
    | false => exact .inr ⟨entry, hrow, hexpired⟩
  obtain ⟨entries, s, hprime, -, hprimed, -, hentries⟩ := hfresh.prime dependable now
  have hknows (region key : String) :
      (((Engine.fresh store capacity defaultRegion).prime now).2.regionD region).known.contains key =
        true ↔ ∃ entry, t.get? region key = some entry ∧ entry.isExpired now = false := by
    rw [hprime]
    refine (Engine.known_primeEntries (.fresh s capacity defaultRegion) entries region key).trans ?_
    constructor
    · rintro (⟨entry, hentry, rfl, rfl⟩ | hknown)
      · exact ⟨entry, (hentries entry).mp hentry⟩
      · simp at hknown
    · rintro ⟨entry, hrow, hlive⟩
      obtain ⟨hregion, hkey⟩ := named _ entry hrow
      refine .inl ⟨entry, ?_, hregion, hkey⟩
      rw [hentries, hregion, hkey]
      exact ⟨hrow, hlive⟩
  refine ⟨hprimed.unspared fun region key hrow => ?_, hknows⟩
  have hlisted := (hknows region key).mpr hrow
  obtain ⟨entry, hentry, -⟩ := hrow
  exact ⟨fun _ => Option.isSome_of_eq_some hentry, fun _ => hlisted, fun _ _ => hlisted⟩

theorem filterDead (h : Tiers picky stands spared since e t) (now : Nat) (region : String)
    (keys : List String) :
    ∃ s, e.filterDead now region keys = (keys.filter fun key =>
        !((e.cell t region key).visible? now).isSome, { e with store := s }) ∧ stands s t := by
  induction keys generalizing e with
  | nil => exact ⟨e.store, rfl, h.stored⟩
  | cons key rest ih =>
    obtain ⟨found, s, hpeek, hseen, hasked⟩ := h.peek dependable now region key
    obtain ⟨s', hfilter, hs'⟩ := ih hasked.tiers
    refine ⟨s', ?_, hs'⟩
    have hcells (name : String) : ({ e with store := s } : Engine σ).cell t region name =
        e.cell t region name := rfl
    simp only [Engine.filterDead, hpeek, hfilter, hcells, hseen.isSome, List.filter_cons]
    cases ((e.cell t region key).visible? now).isSome <;> rfl

/-- Those of the keys go that are not seen. -/
theorem removeDead (h : Tiers picky stands spared since e t) (now : Nat) (region : String)
    (keys : List String) :
    ∃ t', Tiers picky stands spared since (e.removeDead now region keys).2 t' ∧
      ∀ other name, (e.removeDead now region keys).2.cell t' other name =
        if region = other ∧ name ∈ keys ∧ (e.cell t other name).visible? now = none then .absent
        else e.cell t other name := by
  induction keys generalizing e t with
  | nil => exact ⟨t, h, fun other name => by simp [Engine.removeDead]⟩
  | cons key rest ih =>
    obtain ⟨found, s, hpeek, hseen, hasked⟩ := h.peek dependable now region key
    have hcells (other name : String) : ({ e with store := s } : Engine σ).cell t other name =
        e.cell t other name := rfl
    rw [Engine.removeDead, hpeek]
    cases found with
    | some entry =>
      obtain ⟨t', h', hcell'⟩ := ih hasked.tiers
      refine ⟨t', h', fun other name => ?_⟩
      simp only [hcell', hcells, List.mem_cons]
      split
      · rename_i hname
        rw [if_pos ⟨hname.1, .inr hname.2.1, hname.2.2⟩]
      · rename_i hname
        rw [if_neg]
        rintro ⟨rfl, rfl | hin, hnone⟩
        · rw [← hseen.row] at hnone
          cases hnone
        · exact hname ⟨rfl, hin, hnone⟩
    | none =>
      obtain ⟨hremoved, hcell⟩ := hasked.tiers.removeKey dependable region key
      obtain ⟨t', h', hcell'⟩ := ih hremoved
      refine ⟨t', h', fun other name => ?_⟩
      simp only [hcell', hcell, hcells, List.mem_cons]
      by_cases hkey : region = other ∧ key = name
      · obtain ⟨rfl, rfl⟩ := hkey
        have hnone : (e.cell t region key).visible? now = none := hseen.row.symm
        simp [hnone]
      · rw [if_neg hkey]
        split
        · rename_i hname
          rw [if_pos ⟨hname.1, .inr hname.2.1, hname.2.2⟩]
        · rename_i hname
          rw [if_neg]
          rintro ⟨rfl, rfl | hin, hnone⟩
          · exact hkey ⟨rfl, rfl⟩
          · exact hname ⟨rfl, hin, hnone⟩

/-- The known keys of a region that are not seen go. -/
theorem sweepRegion (h : Tiers picky stands spared since e t) (now : Nat) (region : String) :
    ∃ dead e₁ t', e.filterDead now region (e.regionD region).known.toList = (dead, e₁) ∧
      Tiers picky stands spared since (e₁.removeDead now region dead).2 t' ∧
      ∀ other name, (e₁.removeDead now region dead).2.cell t' other name =
        if region = other ∧ (e.cell t other name).known = true ∧
          (e.cell t other name).visible? now = none then .absent else e.cell t other name := by
  obtain ⟨s, hdead, hs⟩ := h.filterDead dependable now region (e.regionD region).known.toList
  obtain ⟨t', h', hcell⟩ := (h.withStore hs).removeDead dependable now region
    ((e.regionD region).known.toList.filter fun key => !((e.cell t region key).visible? now).isSome)
  have hcells (other name : String) : ({ e with store := s } : Engine σ).cell t other name =
      e.cell t other name := rfl
  have hlisted (name : String) : name ∈ (e.regionD region).known.toList ↔
      (e.cell t region name).known = true := by
    rw [ExtTreeSet.mem_toList, ← ExtTreeSet.contains_iff_mem]
    rfl
  refine ⟨_, _, t', hdead, h', fun other name => ?_⟩
  rw [hcell, hcells]
  by_cases hregion : region = other
  · subst hregion
    simp only [true_and, List.mem_filter, hlisted, Bool.not_eq_true', Option.isSome_eq_false_iff,
      Option.isNone_iff_eq_none, and_assoc, and_self]
  · rw [if_neg fun hname => hregion hname.1, if_neg fun hname => hregion hname.1]

/-- The known keys of the regions that are not seen go. -/
theorem sweepRegions (h : Tiers picky stands spared since e t) (now : Nat) (regions : List String) :
    ∃ t', Tiers picky stands spared since (e.sweepRegions now regions).2 t' ∧
      ∀ other name, (e.sweepRegions now regions).2.cell t' other name =
        if other ∈ regions ∧ (e.cell t other name).known = true ∧
            (e.cell t other name).visible? now = none then .absent
        else e.cell t other name := by
  induction regions generalizing e t with
  | nil => exact ⟨t, h, fun other name => by simp [Engine.sweepRegions]⟩
  | cons region rest ih =>
    obtain ⟨dead, e₁, t₁, hdead, h₁, hfirst⟩ := h.sweepRegion dependable now region
    obtain ⟨t', h', hrest⟩ := ih h₁
    simp only [Engine.sweepRegions, hdead]
    refine ⟨t', h', fun other name => ?_⟩
    rw [hrest]
    by_cases hgone : region = other ∧ (e.cell t other name).known = true ∧
        (e.cell t other name).visible? now = none
    · rw [(hfirst other name).trans (if_pos hgone), ite_self,
        if_pos ⟨by rw [hgone.1]; exact .head _, hgone.2⟩]
    · rw [(hfirst other name).trans (if_neg hgone)]
      simp only [List.mem_cons, eq_comm (a := other), or_and_right, hgone, false_or]

/-- The rows that are expired are purged. None of them is in memory, unless its key is spared. -/
theorem purge (h : Tiers picky stands spared since e t) (now : Nat)
    (hseen : ∀ region key, (e.cell t region key).known = true →
      ((e.cell t region key).visible? now).isSome) :
    Tiers picky stands spared since { e with store := (Store.deleteExpired now e.store).2 }
      (t.eraseExpired now) := by
  obtain ⟨n, s, hpurge, hs⟩ := dependable.deleteExpired h.stored now
  rw [hpurge]
  refine ⟨hs, t.named_eraseExpired h.named now, h.filed, fun region key => ?_⟩
  have hcell : ({ e with store := s } : Engine σ).cell (t.eraseExpired now) region key =
      { e.cell t region key with
        stored := (e.cell t region key).stored.filter fun entry => !entry.isExpired now } := by
    rw [Engine.cell, t.get?_eraseExpired]
    rfl
  obtain ⟨hagrees, hlisted⟩ := h.cells region key
  rw [hcell]
  refine ⟨?_, hlisted.imp_right fun listed => ⟨?_, listed.resident, ?_⟩⟩
  · intro row entry hcopy hentry
    exact hagrees row entry hcopy (Option.filter_eq_some_iff.mp hentry).1
  · intro hcopy
    -- a key in memory is known, so it is seen, and its row with it
    obtain ⟨row, hrow⟩ := Option.isSome_iff_exists.mp hcopy
    obtain ⟨entry, hentry⟩ := Option.isSome_iff_exists.mp (listed.backed hcopy)
    have hvisible := hseen region key (listed.resident hcopy)
    obtain rfl := hagrees row entry hrow hentry
    have hlive : entry.isExpired now = false := by
      rw [Cell.visible?, Cell.held, hrow, Option.some_or, Option.isSome_filter, Option.any_some,
        entry.isVisible_row, Bool.not_eq_true'] at hvisible
      exact hvisible
    rw [hentry, Option.filter_some, hlive]
    rfl
  · intro entry hentry
    exact listed.stored (Option.filter_eq_some_iff.mp hentry).1

/-- Of the keys that are seen only expired rows are swept, and there are none unless the key is spared. -/
theorem sweep (h : Tiers picky stands spared since e t) (now : Nat) :
    ∃ t', Tiers picky stands spared since (e.sweep now).2 t' ∧
      ∀ region key, (e.cell t region key).Live now →
        t'.get? region key = (t.get? region key).filter (!·.isExpired now) := by
  obtain ⟨t₁, h₁, hcell⟩ := h.sweepRegions dependable now e.regions.keys
  refine ⟨_, h₁.purge dependable now fun region key hknown => ?_, fun region key live => ?_⟩
  · rw [hcell] at hknown ⊢
    split at hknown
    · cases hknown
    · rename_i hkept
      rw [if_neg hkept]
      -- a known key is one of a region there is
      have hregion : region ∈ e.regions.keys := by
        cases hregion : e.region? region with
        | none => simp [Engine.cell, Engine.regionD_of_none hregion] at hknown
        | some state =>
          exact Tree.mem_keys_iff.2 (Option.isSome_of_eq_some hregion)
      rw [← Option.ne_none_iff_isSome]
      exact fun hnone => hkept ⟨hregion, hknown, hnone⟩
  · obtain ⟨row, hrow⟩ := live
    have hkept := hcell region key
    rw [if_neg fun hgone => Option.some_ne_none row (hrow.symm.trans hgone.2.2)] at hkept
    rw [t₁.get?_eraseExpired]
    exact congrArg (Option.filter _) (congrArg Cell.stored hkept)

end Tiers
end TierCache
