import TierCache.Engine.Keys
import TierCache.Proofs.Outage.Moving

/-!
Reading while the store may fail. A failed load counts as an absent row, so what a reader is shown is
never wrong, but he may be shown nothing in the place of a row. He moves entries between the tiers and
does nothing else.
-/
namespace TierCache
open Std

/-- What a reader is shown of a key: an entry that is not expired and agrees with the row, or nothing.
He is shown nothing only if the entry in memory is expired, or there is none in memory and the row is
expired or was not loaded. -/
structure Shown {σ : Type} (e : Engine (Faulty σ)) (t : Table) (now : Nat) (region key : String)
    (after : Faulty σ) (found : Option Entry) : Prop where
  live {entry : Entry} (h : found = some entry) :
    entry.isExpired now = false ∧ entry.Agrees t region key
  copy (h : found = none) {entry : Entry} (hm : (e.regionD region).memory[key]? = some entry) :
    entry.isExpired now = true
  row (h : found = none) (answered : e.store.Answered after .load) {row : Entry}
    (hrow : t.get? region key = some row) : row.isExpired now = true

/-- The key has an entry in memory that is not expired or, if the loads were answered, such a row. -/
def Alive {σ : Type} (e : Engine (Faulty σ)) (t : Table) (now : Nat) (after : Faulty σ)
    (region key : String) : Prop :=
  (∃ entry, (e.regionD region).memory[key]? = some entry ∧ entry.isExpired now = false) ∨
    e.store.Answered after .load ∧ ∃ row, t.get? region key = some row ∧ row.isExpired now = false

namespace Shown

variable {σ : Type} {stands : σ → Table → Prop} {e : Engine (Faulty σ)} {t : Table} {now : Nat}
  {region key : String} {after : Faulty σ}

theorem of_live {entry : Entry} (hlive : entry.isExpired now = false)
    (hagrees : entry.Agrees t region key) : Shown e t now region key after (some entry) := by
  refine ⟨?_, ?_, ?_⟩
  · rintro _ ⟨⟩
    exact ⟨hlive, hagrees⟩
  · intro hnone
    cases hnone
  · intro hnone
    cases hnone

/-- An entry in memory is shown unless it is expired. -/
theorem of_copy (h : Backed stands e t) {entry : Entry}
    (hm : (e.regionD region).memory[key]? = some entry) :
    Shown e t now region key after (if entry.isExpired now then none else some entry) := by
  have hagrees := h.copied hm
  split
  · rename_i hexpired
    refine ⟨?_, ?_, ?_⟩
    · rintro _ ⟨⟩
    · intro _ copy hcopy
      cases hm.symm.trans hcopy
      exact hexpired
    · intro _ _ row hrow
      exact (Entry.isExpired_of_row (hagrees.ofRow hrow) now).trans hexpired
  · rename_i hlive
    exact of_live (eq_false_of_ne_true hlive) hagrees

/-- Where memory has no entry, the row is shown unless it is expired. -/
theorem of_row (named : t.Named) (hout : (e.regionD region).memory[key]? = none) :
    Shown e t now region key after ((t.get? region key).filter fun row => !row.isExpired now) := by
  cases hrow : t.get? region key with
  | none =>
    refine ⟨?_, ?_, ?_⟩
    · rintro _ ⟨⟩
    · intro _ entry hm
      rw [hout] at hm
      cases hm
    · intro _ _ row hr
      rw [hrow] at hr
      cases hr
  | some row =>
    cases hexpired : row.isExpired now with
    | true =>
      simp only [Option.filter_some, hexpired, Bool.not_true, Bool.false_eq_true, if_false]
      refine ⟨?_, ?_, ?_⟩
      · rintro _ ⟨⟩
      · intro _ entry hm
        rw [hout] at hm
        cases hm
      · intro _ _ other hr
        cases hrow.symm.trans hr
        exact hexpired
    | false =>
      simp only [Option.filter_some, hexpired, Bool.not_false, if_true]
      have hname := named ⟨region, key⟩ row hrow
      refine of_live hexpired ⟨hname.1, hname.2, ?_⟩
      intro other hother
      cases hrow.symm.trans hother
      rfl

/-- Where memory has no entry and the row was not loaded, nothing is shown. -/
theorem of_lost (hout : (e.regionD region).memory[key]? = none)
    (hlost : ¬e.store.Answered after .load) : Shown e t now region key after none := by
  refine ⟨?_, ?_, fun _ answered => absurd answered hlost⟩
  · rintro _ ⟨⟩
  · intro _ entry hm
    rw [hout] at hm
    cases hm

/-- What is shown later is shown from before, if memory had the same of the key. -/
theorem earlier {e' : Engine (Faulty σ)} {found : Option Entry}
    (h : Shown e' t now region key after found) (later : e.store.Later e'.store)
    (same : (e.regionD region).memory = (e'.regionD region).memory) :
    Shown e t now region key after found := by
  refine ⟨h.live, ?_, ?_⟩
  · intro hnone entry hm
    rw [same] at hm
    exact h.copy hnone hm
  · intro hnone answered row hrow
    exact h.row hnone (answered.rest later) hrow

/-- A key that is alive is shown. -/
theorem not_alive (h : Shown e t now region key after none) :
    ¬Alive e t now after region key := by
  rintro (⟨entry, hm, hlive⟩ | ⟨answered, row, hrow, hlive⟩)
  · exact Bool.false_ne_true (hlive.symm.trans (h.copy rfl hm))
  · exact Bool.false_ne_true (hlive.symm.trans (h.row rfl answered hrow))

/-- The row of a key that is shown is not expired. -/
theorem row_live {entry row : Entry} (h : Shown e t now region key after (some entry))
    (hrow : t.get? region key = some row) : row.isExpired now = false := by
  obtain ⟨hlive, hagrees⟩ := h.live rfl
  rw [Entry.isExpired_of_row (hagrees.ofRow hrow), hlive]

end Shown

section
variable {σ : Type} [Store σ] {stands : σ → Table → Prop} (reliable : Reliable stands)
include reliable

theorem loadLive_ends {s : Faulty σ} {t : Table} (h : stands s.inner t) (now : Nat)
    (region key : String) : ∃ s', s.Later s' ∧ stands s'.inner t ∧
      (loadLive now region key s =
          ((t.get? region key).filter fun row => !row.isExpired now, s') ∨
        loadLive now region key s = (none, s') ∧ ¬s.Answered s' .load) := by
  obtain ⟨s', later, ⟨hload, hs⟩ | ⟨⟨err, hload⟩, hs, hlost⟩⟩ := Faulty.load reliable h region key
  · refine ⟨s', later, hs, .inl ?_⟩
    simp only [loadLive, hload]
    cases t.get? region key with
    | none => rfl
    | some row => cases hexpired : row.isExpired now <;> simp [hexpired, Option.filter_some]
  · refine ⟨s', later, hs, .inr ⟨?_, hlost⟩⟩
    simp only [loadLive, hload]

namespace Backed

variable {e : Engine (Faulty σ)} {t : Table} (h : Backed stands e t) (now : Nat)
  (region key : String)
include h

omit [Store σ] reliable h in
theorem finds_copy {copy found : Entry} (hm : (e.regionD region).memory[key]? = some copy)
    (hlive : copy.isExpired now = false) (hrow : found.row = copy.row) :
    (e.cell t region key).Finds now (some found) := by
  rintro _ ⟨⟩
  have hvisible : copy.row.isVisible now = true := by rw [copy.isVisible_row, hlive]; rfl
  simp only [Cell.visible?, Cell.held, Engine.cell, hm, Option.map_some, Option.some_or, hrow,
    Option.filter_some, hvisible, if_true]

/-- A key that memory has not is looked for in the store. -/
theorem loadLive (hout : (e.regionD region).memory[key]? = none) :
    ∃ found s, TierCache.loadLive now region key e.store = (found, s) ∧
      Moves stands now .quiet [] e t { e with store := s } t ∧
      Shown e t now region key s found ∧
      ∀ entry, found = some entry → t.get? region key = some entry ∧ entry.row.isVisible now := by
  obtain ⟨s, later, hs, hload | ⟨hload, hlost⟩⟩ := loadLive_ends reliable h.stored now region key
  · refine ⟨_, s, hload, .asked (h.withStore hs) later, .of_row h.named hout, ?_⟩
    intro entry hfound
    rw [entry.isVisible_row]
    exact Option.filter_eq_some_iff.mp hfound
  · exact ⟨_, s, hload, .asked (h.withStore hs) later, .of_lost hout hlost, nofun⟩

theorem peek : ∃ found s, e.peek now region key = (found, { e with store := s }) ∧
    Moves stands now .quiet [] e t { e with store := s } t ∧ Shown e t now region key s found ∧
    (e.cell t region key).Finds now found := by
  have hloaded (hout : (e.regionD region).memory[key]? = none) (found : Option Entry)
      (hrow : ∀ entry, found = some entry →
        t.get? region key = some entry ∧ entry.row.isVisible now) :
      (e.cell t region key).Finds now found := by
    intro entry hfound
    obtain ⟨hstored, hvisible⟩ := hrow entry hfound
    exact Cell.Same.visible? ⟨rfl, rfl, .inl⟩ entry (congrArg (Option.map Entry.row) hout) hstored
      hvisible
  cases hregion : e.region? region with
  | none =>
    have hout : (e.regionD region).memory[key]? = none := by simp [Engine.regionD_of_none hregion]
    obtain ⟨found, s, hload, hmoves, hshown, hrow⟩ := h.loadLive reliable now region key hout
    exact ⟨found, s, by simp only [Engine.peek, hregion, hload], hmoves, hshown,
      hloaded hout found hrow⟩
  | some state =>
    have hstate := Engine.regionD_of_region? hregion
    cases hmem : state.memory[key]? with
    | none =>
      have hout : (e.regionD region).memory[key]? = none := by rw [hstate, hmem]
      obtain ⟨found, s, hload, hmoves, hshown, hrow⟩ := h.loadLive reliable now region key hout
      exact ⟨found, s, by simp only [Engine.peek, hregion, Region.peek, hmem, hload], hmoves,
        hshown, hloaded hout found hrow⟩
    | some entry =>
      have hm : (e.regionD region).memory[key]? = some entry := by rw [hstate, hmem]
      refine ⟨_, e.store, ?_, .refl h, .of_copy h hm, ?_⟩
      · simp only [Engine.peek, hregion, Region.peek, hmem]
      · cases hexpired : entry.isExpired now with
        | true => simp only [if_true, Cell.Finds, reduceCtorEq, false_implies, implies_true]
        | false => exact finds_copy now region key hm hexpired rfl

theorem readEntry : ∃ found e', e.readEntry now region key = (found, e') ∧
    Moves stands now .quiet [] e t e' t ∧ Shown e t now region key e'.store found ∧
    (e'.cell t region key).Finds now found := by
  cases hmem : (e.regionD region).memory[key]? with
  | some entry =>
    have hagrees := h.copied hmem
    have hshown : Shown e t now region key e.store (if entry.isExpired now then none else some entry) :=
      .of_copy h hmem
    cases hexpired : entry.isExpired now with
    | true =>
      rw [hexpired, if_pos rfl] at hshown
      exact ⟨none, e, by simp only [Engine.readEntry, hmem, hexpired, if_true], .refl h, hshown,
        nofun⟩
    | false =>
      have htouched : (entry.touch now).Agrees t region key :=
        ⟨hagrees.ofRegion, hagrees.ofKey, hagrees.ofRow⟩
      have hlive : Shown e t now region key e.store (some (entry.touch now)) :=
        .of_live hexpired htouched
      -- the copy is the same but for its time of use
      have hcells (other name : String) :
          (e.hold region key (entry.touch now)).cell t other name = e.cell t other name := by
        rw [Engine.cell_hold]
        split
        · rename_i hname
          obtain ⟨rfl, rfl⟩ := hname
          simp only [Engine.cell, hmem]
          rfl
        · rfl
      refine ⟨_, e.hold region key (entry.touch now), ?_,
        .still (h.hold htouched) (.refl _) rfl hcells, hlive, ?_⟩
      · simp only [Engine.readEntry, hmem, hexpired, Bool.false_eq_true, if_false]
      · rw [hcells]
        exact finds_copy now region key hmem hexpired rfl
  | none =>
    obtain ⟨found, s, hload, hmoves, hshown, hrow⟩ := h.loadLive reliable now region key hmem
    cases found with
    | none =>
      exact ⟨none, _, by simp only [Engine.readEntry, hmem, hload], hmoves, hshown, nofun⟩
    | some entry =>
      obtain ⟨hlive, hagrees⟩ := hshown.live rfl
      obtain ⟨hstored, hvisible⟩ := hrow entry rfl
      -- what is given back differs from the row in its time of use and its place alone
      have hseen (place : Bool) :
          ({ entry.touch now with resident := place } : Entry).Agrees t region key :=
        ⟨hagrees.ofRegion, hagrees.ofKey, hagrees.ofRow⟩
      have hlive (place : Bool) (after : Faulty σ) : Shown e t now region key after
          (some { entry.touch now with resident := place }) :=
        .of_live hlive (hseen place)
      have hfinds {e' : Engine (Faulty σ)} (hmoves : Moves stands now .quiet [] e t e' t)
          (place : Bool) : (e'.cell t region key).Finds now
            (some { entry.touch now with resident := place }) := by
        rintro _ ⟨⟩
        exact (hmoves.path region key).same.visible? entry (congrArg (Option.map Entry.row) hmem)
          hstored hvisible
      have htry := hmoves.trans (.tryReserve hmoves.backed)
      cases hclaim : ({ e with store := s } : Engine (Faulty σ)).tryReserve with
      | mk granted e₁ =>
        rw [hclaim] at htry
        cases granted with
        | false =>
          refine ⟨_, _, ?_, htry, hlive false _, hfinds htry false⟩
          simp only [Engine.readEntry, hmem, hload, hclaim]
        | true =>
          have hput := htry.trans (.install htry.backed region
            { entry.touch now with resident := true } true
            ((congrArg (t.get? region) hagrees.ofKey).trans hstored) rfl hagrees.ofRegion)
          cases hinstall : e₁.install region { entry.touch now with resident := true } true with
          | mk placed e₂ =>
            rw [hinstall] at hput
            refine ⟨_, e₂, ?_, hput, hlive placed _, hfinds hput placed⟩
            simp only [Engine.readEntry, hmem, hload, hclaim, hinstall]

theorem getEntry : ∃ found e', e.getEntry now region key = (found, e') ∧
    Moves stands now .quiet [] e t e' t ∧ Shown e t now region key e'.store found ∧
    (e'.cell t region key).Finds now found := by
  cases hregion : e.region? region with
  | some state =>
    obtain ⟨found, e', hread, hread'⟩ := h.readEntry reliable now region key
    exact ⟨found, e', by simp only [Engine.getEntry, hregion, hread], hread'⟩
  | none =>
    obtain ⟨found, s, hload, hmoves, hshown, -⟩ := h.loadLive reliable now region key
      (by simp [Engine.regionD_of_none hregion])
    cases found with
    | none => exact ⟨none, _, by simp only [Engine.getEntry, hregion, hload], hmoves, hshown, nofun⟩
    | some entry =>
      have hensured := hmoves.trans (.ensureRegion hmoves.backed region)
      obtain ⟨seen, e', hread, hmoves', hseen, hfinds⟩ :=
        hensured.backed.readEntry reliable now region key
      have hsame : (({ e with store := s } : Engine (Faulty σ)).ensureRegion region).regionD region =
          e.regionD region := Engine.regionD_ensureRegion ..
      refine ⟨seen, e', ?_, hensured.trans hmoves', hseen.earlier hensured.later ?_, hfinds⟩
      · simp only [Engine.getEntry, hregion, hload, hread]
      · rw [hsame]

end Backed
end
end TierCache
