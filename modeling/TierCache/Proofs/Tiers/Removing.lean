import TierCache.Proofs.Tiers.Writing

/-!
Removals from both tiers. What becomes of each key is told exactly: it is in no tier any more, or its
cell is as it was.
-/
namespace TierCache
open Std

namespace Tiers

variable {σ : Type} {picky : Prop} {stands : σ → Table → Prop} {spared : String → String → Prop}
  {since : Nat} {e : Engine σ} {t : Table}

/-- Some keys are in no tier any more. -/
theorem of_removed (h : Tiers picky stands spared since e t) {e' : Engine σ} {t' : Table}
    (stored : stands e'.store t') (named : t'.Named)
    (memory : ∀ {region key : String} {entry : Entry},
      (e'.regionD region).memory[key]? = some entry → (e.regionD region).memory[key]? = some entry)
    (cells : ∀ region key, e'.cell t' region key = .absent ∨
      e'.cell t' region key = e.cell t region key) :
    Tiers picky stands spared since e' t' := by
  refine ⟨stored, named, fun hm => h.filed (memory hm), fun region key => ?_⟩
  obtain heq | heq := cells region key
  · rw [heq]
    exact .absent _ _
  · rw [heq]
    exact h.cells region key

variable [Store σ] (dependable : Dependable picky stands)
include dependable

theorem removeKey (h : Tiers picky stands spared since e t) (region key : String) :
    Tiers picky stands spared since (e.removeKey region key).2 (t.erase region key) ∧
      ∀ other name, (e.removeKey region key).2.cell (t.erase region key) other name =
        if region = other ∧ key = name then .absent else e.cell t other name := by
  have hcell (other name : String) : (e.removeKey region key).2.cell (t.erase region key) other name =
      if region = other ∧ key = name then .absent else e.cell t other name := by
    rw [Engine.cell_removeKey]
    split
    · rename_i hname
      rw [t.get?_erase, if_pos (by rw [hname.1, hname.2])]
      rfl
    · rename_i hname
      exact Engine.cell_of_row (by rw [t.get?_erase, if_neg fun heq => hname (RowId.mk.inj heq)])
  obtain ⟨s, hdelete, hs⟩ := dependable.delete h.stored region key
  refine ⟨h.of_removed ?_ (t.named_erase h.named region key) ?_ ?_, hcell⟩
  · rw [Engine.store_removeKey, hdelete]
    exact hs
  · intro other name entry hm
    rw [Engine.memory_removeKey] at hm
    split at hm
    · cases hm
    · exact hm
  · intro other name
    rw [hcell]
    split
    · exact .inl rfl
    · exact .inr rfl

theorem removeKeys (h : Tiers picky stands spared since e t) (region : String) (keys : List String) :
    ∃ t', Tiers picky stands spared since (e.removeKeys region keys).2 t' ∧
      ∀ other name, (e.removeKeys region keys).2.cell t' other name =
        if region = other ∧ name ∈ keys then .absent else e.cell t other name := by
  induction keys generalizing e t with
  | nil => exact ⟨t, h, fun other name => by rw [if_neg (by simp)]; rfl⟩
  | cons key rest ih =>
    obtain ⟨hremoved, hcell⟩ := h.removeKey dependable region key
    have hrest {e₁ : Engine σ} {t₁ : Table} (h₁ : Tiers picky stands spared since e₁ t₁)
        (hcell₁ : ∀ other name, e₁.cell t₁ other name =
          if region = other ∧ key = name then .absent else e.cell t other name) :
        ∃ t', Tiers picky stands spared since (e₁.removeKeys region rest).2 t' ∧
          ∀ other name, (e₁.removeKeys region rest).2.cell t' other name =
            if region = other ∧ name ∈ key :: rest then .absent else e.cell t other name := by
      obtain ⟨t', h', hcell'⟩ := ih h₁
      refine ⟨t', h', fun other name => ?_⟩
      rw [hcell', hcell₁]
      simp only [List.mem_cons, eq_comm (a := name)]
      split
      · rename_i hname
        rw [if_pos ⟨hname.1, .inr hname.2⟩]
      · rename_i hname
        split
        · rename_i hkey
          rw [if_pos ⟨hkey.1, .inl hkey.2⟩]
        · rename_i hkey
          rw [if_neg]
          rintro ⟨hregion, hin | hin⟩
          · exact hkey ⟨hregion, hin⟩
          · exact hname ⟨hregion, hin⟩
    rw [Engine.removeKeys]
    cases hremove : e.removeKey region key with
    | mk was e₁ =>
      rw [hremove] at hremoved hcell
      cases was with
      | true =>
        have htold : Tiers picky stands spared since
            (e₁.announce (.delete region key) region key .delete) (t.erase region key) :=
          hremoved.of_regions hremoved.stored rfl
        exact hrest htold hcell
      | false => exact hrest hremoved hcell

theorem delete (h : Tiers picky stands spared since e t) (region : String) (keys : List String) :
    ∃ t', Tiers picky stands spared since (e.delete region keys).2 t' ∧
      ∀ other name, (e.delete region keys).2.cell t' other name =
        if (e.region? region).isSome ∧ region = other ∧ name ∈ keys then .absent
        else e.cell t other name := by
  cases hregion : e.region? region with
  | none =>
    exact ⟨t, by rwa [Engine.delete, hregion], fun other name => by simp [Engine.delete, hregion]⟩
  | some state =>
    obtain ⟨t', h', hcell⟩ := h.removeKeys dependable region keys
    refine ⟨t', by rwa [Engine.delete, hregion], fun other name => ?_⟩
    simp only [Engine.delete, hregion, hcell, Option.isSome_some, true_and]

/-- A key is let expire where it is seen and its region is there, and removed if no time is left. -/
theorem expire (h : Tiers picky stands spared since e t) {now : Nat} (hle : since ≤ now)
    (region key : String) (seconds : Int) :
    ∃ t', Tiers picky stands spared since (e.expire now region key seconds).2 t' ∧
      ∀ other name, (e.expire now region key seconds).2.cell t' other name =
        if (e.region? region).isSome ∧ region = other ∧ key = name then
          if seconds ≤ 0 then .absent
          else if ((e.cell t other name).visible? now).isSome then
            (e.cell t other name).retimed (some (Engine.secondsAfter now seconds.toNat))
          else e.cell t other name
        else e.cell t other name := by
  by_cases hseconds : seconds ≤ 0
  · obtain ⟨t', h', hcell⟩ := h.delete dependable region [key]
    simp only [Engine.expire, if_pos hseconds]
    refine ⟨t', h', fun other name => ?_⟩
    simp only [hcell, List.mem_singleton, eq_comm (a := key)]
  · simp only [Engine.expire, if_neg hseconds]
    cases hregion : e.region? region with
    | none => exact ⟨t, h, fun other name => by simp⟩
    | some state =>
      obtain ⟨found, s, hpeek, hseen, hrested⟩ := h.peek dependable now region key
      simp only [hpeek, Option.isSome_some, true_and]
      cases found with
      | none =>
        refine ⟨t, hrested.tiers, fun other name => ?_⟩
        have hsame : ({ e with store := s } : Engine σ).cell t other name = e.cell t other name := rfl
        rw [hsame]
        split
        · rename_i hname
          rw [← hname.1, ← hname.2, if_neg (by simp [← hseen.isSome])]
        · rfl
      | some entry =>
        have hrange : ∀ n ∈ some (Engine.secondsAfter now seconds.toNat), n ≤ Text.maxUnsigned := by
          rintro _ ⟨⟩
          exact Engine.secondsAfter_le _ _
        obtain ⟨s', hupdate, hset⟩ := hrested.tiers.updateExpiry dependable hle hseen.live hrange
          (.expire region key seconds) .expire
        simp only [hupdate]
        refine ⟨_, hset, fun other name => ?_⟩
        refine (({ e with store := s' } : Engine σ).cell_setExpiry region key
          (some (Engine.secondsAfter now seconds.toNat)) t other name).trans ?_
        have hsame : ({ e with store := s' } : Engine σ).cell t other name = e.cell t other name := rfl
        rw [hsame]
        split
        · rename_i hname
          rw [← hname.1, ← hname.2, if_pos (by rw [← hseen.isSome]; rfl)]
        · rfl

/-- A region that is not the default one is in no tier any more. -/
theorem deleteRegion (h : Tiers picky stands spared since e t) (region : String) :
    ∃ t', Tiers picky stands spared since (e.deleteRegion region).2 t' ∧
      ∀ other name, (e.deleteRegion region).2.cell t' other name =
        if region ≠ e.defaultRegion ∧ region = other then .absent else e.cell t other name := by
  by_cases hdefault : region = e.defaultRegion
  · rw [Engine.deleteRegion, if_pos hdefault]
    exact ⟨t, h, fun other name => by simp [hdefault]⟩
  · obtain ⟨s, hdelete, hs⟩ := dependable.deleteRegion h.stored region
    obtain ⟨e', heq, hstore, -, hcleared⟩ :=
      ({ e.signal (.mutation (.deleteRegion region)) with store := s } : Engine σ).clearIfThere region
    have hcell : ∀ other name, e'.cell (t.eraseRegion region) other name =
        if region = other then .absent else e.cell t other name := Engine.cell_cleared hcleared t
    have hsignal : Store.deleteRegion region (e.signal (.mutation (.deleteRegion region))).store =
        (.ok (), s) := hdelete
    have hregion : (e.deleteRegion region).2 = e'.signal (.change region "*" .deleteRegion) := by
      simp only [Engine.deleteRegion, if_neg hdefault, hsignal, ← heq]
    rw [hregion]
    refine ⟨t.eraseRegion region, ?_, fun other name => ?_⟩
    · refine h.of_removed (hstore ▸ hs) (t.named_eraseRegion h.named region) ?_ ?_
      · intro other name entry hm
        have hm' : (e'.regionD other).memory[name]? = some entry := hm
        rw [hcleared] at hm'
        split at hm'
        · simp at hm'
        · exact hm'
      · intro other name
        refine (em (region = other)).imp (fun hother => ?_) fun hother => ?_
        · exact (hcell other name).trans (if_pos hother)
        · exact (hcell other name).trans (if_neg hother)
    · simp only [ne_eq, hdefault, not_false_eq_true, true_and]
      exact hcell other name

end Tiers
end TierCache
