import TierCache.Proofs.Outage.Removing

/-!
The sweep of expired keys while the store may fail. It takes a failed load for an absent row, so a key
whose row it cannot read is removed like an expired one. A key with an entry in memory that is not
expired is safe from that, and every key with such a row is as long as the loads are answered.
-/
namespace TierCache
open Std

/-- Keys may be removed and expired rows purged. -/
def Reach.sweeping : Reach := onto (fun _ _ => True) [.forget, .purge]

theorem Reach.quiet_sweeping (region key : String) (kind : Cell.Kind) (h : quiet region key kind) :
    sweeping region key kind :=
  .inl h

theorem Reach.only_sweeping {region key : String} (other name : String) (kind : Cell.Kind)
    (h : only region key [.forget] other name kind) : sweeping other name kind :=
  onto_mono (fun _ _ _ => trivial) (by decide) other name kind h

/-- The key is as known, its entry in memory the same and its row, too. -/
structure Untouched {σ : Type} (e : Engine (Faulty σ)) (t : Table) (e' : Engine (Faulty σ))
    (t' : Table) (region key : String) : Prop where
  known : (e'.regionD region).known.contains key = (e.regionD region).known.contains key
  memory : (e'.regionD region).memory[key]? = (e.regionD region).memory[key]?
  row : t'.get? region key = t.get? region key

/-- A sweep has gone on from an engine and its rows to another: nothing has come, and of a key that is
alive nothing has gone. -/
structure Swept {σ : Type} (now : Nat) (e : Engine (Faulty σ)) (t : Table) (e' : Engine (Faulty σ))
    (t' : Table) : Prop where
  later : e.store.Later e'.store
  rows {region key : String} {row : Entry} (h : t'.get? region key = some row) :
    t.get? region key = some row
  known {region key : String} (h : (e'.regionD region).known.contains key = true) :
    (e.regionD region).known.contains key = true
  spared {region key : String} (h : Alive e t now e'.store region key) :
    Untouched e t e' t' region key

namespace Swept

variable {σ : Type} {now : Nat} {e e' e'' : Engine (Faulty σ)} {t t' t'' : Table}

/-- Only the store was asked. -/
theorem of_store {s : Faulty σ} (later : e.store.Later s) :
    Swept now e t { e with store := s } t :=
  ⟨later, id, id, fun _ => ⟨rfl, rfl, rfl⟩⟩

theorem trans (h : Swept now e t e' t') (h' : Swept now e' t' e'' t'') :
    Swept now e t e'' t'' := by
  refine ⟨h.later.trans h'.later, fun hrow => h.rows (h'.rows hrow),
    fun hknown => h.known (h'.known hknown), ?_⟩
  intro region key halive
  have hfirst : Untouched e t e' t' region key :=
    h.spared (halive.imp_right (And.imp_left (·.first h'.later)))
  have hthen : Untouched e' t' e'' t'' region key := by
    apply h'.spared
    rw [Alive, hfirst.memory, hfirst.row]
    exact halive.imp_right (And.imp_left (·.rest h.later))
  exact ⟨hthen.known.trans hfirst.known, hthen.memory.trans hfirst.memory,
    hthen.row.trans hfirst.row⟩

end Swept

namespace Backed

variable {σ : Type} [Store σ] {stands : σ → Table → Prop} (reliable : Reliable stands)
  {e : Engine (Faulty σ)} {t : Table}
include reliable

/-- A key that was looked for in vain is removed. -/
theorem removeUnseen {now : Nat} {region key : String} {s : Faulty σ}
    (hmoves : Moves stands now .quiet [] e t { e with store := s } t)
    (hshown : Shown e t now region key s none) :
    ∃ t', Moves stands now .sweeping [] e t ({ e with store := s }.removeKey region key).2 t' ∧
      Swept now e t ({ e with store := s }.removeKey region key).2 t' := by
  obtain ⟨t', hremoved, -, hrows, hothers⟩ := hmoves.backed.removeKey reliable now region key
  refine ⟨t', (hmoves.mono Reach.quiet_sweeping).trans (hremoved.mono Reach.only_sweeping),
    hmoves.later.trans hremoved.later, fun hrow => hrows _ _ _ hrow, ?_, ?_⟩
  · intro other name hknown
    exact ((Engine.known_removeKey _ region key other name).mp hknown).2
  · intro other name halive
    have hne : ¬(region = other ∧ key = name) := by
      rintro ⟨rfl, rfl⟩
      exact hshown.not_alive (halive.imp_right (And.imp_left (·.first hremoved.later)))
    refine ⟨?_, ?_, hothers other name hne⟩
    · rw [Bool.eq_iff_iff, Engine.known_removeKey]
      exact and_iff_right hne
    · rw [Engine.memory_removeKey, if_neg hne]
      rfl

theorem filterDead (h : Backed stands e t) (now : Nat) (region : String) (keys : List String) :
    ∃ dead s, e.filterDead now region keys = (dead, { e with store := s }) ∧
      Moves stands now .quiet [] e t { e with store := s } t ∧
      ∀ key ∈ keys, key ∉ dead → ∀ row, t.get? region key = some row → row.isExpired now = false := by
  induction keys generalizing e with
  | nil => exact ⟨[], e.store, rfl, .refl h, fun key hkey => by simp at hkey⟩
  | cons key rest ih =>
    obtain ⟨found, s, hpeek, hmoves, hshown, -⟩ := h.peek reliable now region key
    obtain ⟨dead, s', hrest, hmoves', hlive⟩ := ih hmoves.backed
    cases found with
    | some entry =>
      refine ⟨dead, s', by simp [Engine.filterDead, hpeek, hrest], hmoves.trans hmoves', ?_⟩
      intro other hother hnot row hrow
      obtain rfl | hother := List.mem_cons.mp hother
      · exact hshown.row_live hrow
      · exact hlive other hother hnot row hrow
    | none =>
      refine ⟨key :: dead, s', by simp [Engine.filterDead, hpeek, hrest], hmoves.trans hmoves', ?_⟩
      intro other hother hnot row hrow
      rw [List.mem_cons, not_or] at hnot
      obtain rfl | hother := List.mem_cons.mp hother
      · exact absurd rfl hnot.1
      · exact hlive other hother hnot.2 row hrow

/-- Of the keys gone over, those that are still known have a row that is not expired. -/
theorem removeDead (h : Backed stands e t) (now : Nat) (region : String) (keys : List String) :
    ∃ t', Moves stands now .sweeping [] e t (e.removeDead now region keys).2 t' ∧
      Swept now e t (e.removeDead now region keys).2 t' ∧
      ∀ key ∈ keys, ((e.removeDead now region keys).2.regionD region).known.contains key = true →
        ∀ row, t'.get? region key = some row → row.isExpired now = false := by
  induction keys generalizing e t with
  | nil => exact ⟨t, .refl h, .of_store (.refl _), fun key hkey => by simp at hkey⟩
  | cons key rest ih =>
    obtain ⟨found, s, hpeek, hmoves, hshown, -⟩ := h.peek reliable now region key
    rw [Engine.removeDead, hpeek]
    cases found with
    | some entry =>
      obtain ⟨t', hrest, hswept, hlive⟩ := ih hmoves.backed
      refine ⟨t', (hmoves.mono Reach.quiet_sweeping).trans hrest,
        (Swept.of_store hmoves.later).trans hswept, ?_⟩
      intro other hother hknown row hrow
      obtain rfl | hother := List.mem_cons.mp hother
      · exact hshown.row_live (hswept.rows hrow)
      · exact hlive other hother hknown row hrow
    | none =>
      obtain ⟨t₁, hremoved, hgone⟩ := removeUnseen reliable hmoves hshown
      obtain ⟨t', hrest, hswept, hlive⟩ := ih hremoved.backed
      refine ⟨t', hremoved.trans hrest, hgone.trans hswept, ?_⟩
      intro other hother hknown row hrow
      obtain rfl | hother := List.mem_cons.mp hother
      · have hout := (Engine.known_removeKey _ region other region other).mp (hswept.known hknown)
        exact absurd ⟨rfl, rfl⟩ hout.1
      · exact hlive other hother hknown row hrow

/-- In the regions gone over, every key that is still known has a row that is not expired. -/
theorem sweepRegions (h : Backed stands e t) (now : Nat) (regions : List String) :
    ∃ t', Moves stands now .sweeping [] e t (e.sweepRegions now regions).2 t' ∧
      Swept now e t (e.sweepRegions now regions).2 t' ∧
      ∀ region ∈ regions, ∀ key,
        ((e.sweepRegions now regions).2.regionD region).known.contains key = true →
        ∀ row, t'.get? region key = some row → row.isExpired now = false := by
  induction regions generalizing e t with
  | nil => exact ⟨t, .refl h, .of_store (.refl _), fun region hregion => by simp at hregion⟩
  | cons region rest ih =>
    obtain ⟨dead, s, hdead, hmoves, hlive⟩ :=
      h.filterDead reliable now region (e.regionD region).known.toList
    obtain ⟨t₁, hremoved, hgone, hdropped⟩ := hmoves.backed.removeDead reliable now region dead
    obtain ⟨t', hrest, hswept, hothers⟩ := ih hremoved.backed
    simp only [Engine.sweepRegions, hdead]
    refine ⟨t', ((hmoves.mono Reach.quiet_sweeping).trans hremoved).trans hrest,
      ((Swept.of_store hmoves.later).trans hgone).trans hswept, ?_⟩
    intro other hother key hknown row hrow
    obtain rfl | hother := List.mem_cons.mp hother
    · have hrow₁ := hswept.rows hrow
      have hknown₁ := hswept.known hknown
      by_cases hkey : key ∈ dead
      · exact hdropped key hkey hknown₁ row hrow₁
      · refine hlive key ?_ hkey row (hgone.rows hrow₁)
        rw [ExtTreeSet.mem_toList, ← ExtTreeSet.contains_iff_mem]
        exact hgone.known hknown₁
    · exact hothers other hother key hknown row hrow

/-- The rows that are expired are purged, none of which is that of a known key. -/
theorem purge (h : Backed stands e t) {now : Nat}
    (hlive : ∀ region key, (e.regionD region).known.contains key = true →
      ∀ row, t.get? region key = some row → row.isExpired now = false) :
    ∃ t', Moves stands now .sweeping [] e t
        { e with store := (Store.deleteExpired now e.store).2 } t' ∧
      Swept now e t { e with store := (Store.deleteExpired now e.store).2 } t' := by
  obtain ⟨s, later, ⟨hpurge, hs⟩ | ⟨⟨err, hpurge⟩, hs, -⟩⟩ :=
    Faulty.deleteExpired reliable h.stored now
  · have hrows (region key : String) (row : Entry)
        (hrow : (t.eraseExpired now).get? region key = some row) :
        t.get? region key = some row := by
      rw [t.get?_eraseExpired, Option.filter_eq_some_iff] at hrow
      exact hrow.1
    have hkept (region key : String)
        (hrow : ∀ row, t.get? region key = some row → row.isExpired now = false) :
        (t.eraseExpired now).get? region key = t.get? region key := by
      rw [t.get?_eraseExpired]
      cases hr : t.get? region key with
      | none => rfl
      | some row => simp only [Option.filter_some, hrow row hr, Bool.not_false, if_true]
    refine ⟨t.eraseExpired now, ⟨?_, hpurge ▸ later, (List.append_nil _).symm, ?_⟩, ?_⟩
    · rw [hpurge]
      apply h.of_fewer hs (t.named_eraseExpired h.named now) hrows
      · exact fun region key hknown => ⟨hknown, hkept region key (hlive region key hknown)⟩
      · exact fun _ _ _ hm => hm
    · intro region key
      by_cases hexpired : ∃ row, t.get? region key = some row ∧ row.isExpired now = true
      · obtain ⟨row, hrow, hexpired⟩ := hexpired
        have hgone : (t.eraseExpired now).get? region key = none := by
          rw [t.get?_eraseExpired, hrow, Option.filter_some, hexpired]
          rfl
        have hstep : Cell.Step now .purge (e.cell t region key)
            { e.cell t region key with stored := none } := .purge hrow hexpired
        rw [← hgone] at hstep
        exact .one (.inr ⟨trivial, .tail _ (.head _)⟩) hstep
      · have hsame := hkept region key fun row hrow => by
          rw [← Bool.not_eq_true]
          exact fun hpast => hexpired ⟨row, hrow, hpast⟩
        have hcell : ({ e with store := (Store.deleteExpired now e.store).2 } : Engine (Faulty σ)).cell
            (t.eraseExpired now) region key = e.cell t region key := Engine.cell_of_row hsame
        rw [hcell]
        exact .refl _
    · rw [hpurge]
      refine ⟨later, fun hrow => hrows _ _ _ hrow, id, ?_⟩
      intro region key halive
      refine ⟨rfl, rfl, hkept region key ?_⟩
      intro row hrow
      obtain ⟨entry, hm, hlive⟩ | ⟨-, other, hother, hlive⟩ := halive
      · rw [Entry.isExpired_of_row ((h.copied hm).ofRow hrow), hlive]
      · cases hrow.symm.trans hother
        exact hlive
  · rw [hpurge]
    exact ⟨t, .asked (h.withStore hs) later, .of_store later⟩

theorem sweep_moves (h : Backed stands e t) (now : Nat) :
    ∃ t', Moves stands now .sweeping [] e t (e.sweep now).2 t' ∧ Swept now e t (e.sweep now).2 t' := by
  obtain ⟨t₁, hregions, hswept, hlive⟩ := h.sweepRegions reliable now e.regions.keys
  obtain ⟨t', hpurges, hpurged⟩ := hregions.backed.purge reliable fun region key hknown => by
    -- a known key is one of a region there is
    refine hlive region ?_ key hknown
    have hbefore := hswept.known hknown
    cases hregion : e.region? region with
    | none => simp [Engine.regionD_of_none hregion] at hbefore
    | some state =>
      exact Tree.mem_keys_iff.2 (Option.isSome_of_eq_some hregion)
  exact ⟨t', hregions.trans hpurges, hswept.trans hpurged⟩

theorem sweep (h : Backed stands e t) (now : Nat) :
    ∃ t', Backed stands (e.sweep now).2 t' ∧ Swept now e t (e.sweep now).2 t' := by
  obtain ⟨t', hmoves, hswept⟩ := h.sweep_moves reliable now
  exact ⟨t', hmoves.backed, hswept⟩

end Backed
end TierCache
