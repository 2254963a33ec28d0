import TierCache.Proofs.Outage.Removing
import TierCache.Proofs.Outage.Residents
import TierCache.Proofs.Store.Dependable

/-!
Both tiers over a store that answers every call. An entry in memory has the contents of its row, and
what is in memory or to be seen in the store is known, but for keys that are spared: rows that were
there before the run and were never made known.
-/
namespace TierCache
open Std

namespace Cell

/-- A reader comes to the same in both. -/
structure Level (c c' : Cell) : Prop where
  known : c'.known = c.known
  stored : c'.stored = c.stored
  held : c'.held = c.held

namespace Level

variable {c c' c'' : Cell}

theorem refl (c : Cell) : c.Level c := ⟨rfl, rfl, rfl⟩

theorem of_eq (h : c' = c) : c.Level c' := h ▸ .refl c

theorem trans (h : c.Level c') (h' : c'.Level c'') : c.Level c'' :=
  ⟨h'.known.trans h.known, h'.stored.trans h.stored, h'.held.trans h.held⟩

theorem visible? (h : c.Level c') (now : Nat) : c'.visible? now = c.visible? now := by
  rw [Cell.visible?, Cell.visible?, h.held]

end Level

/-- What holds of a key unless it is spared: its entry in memory has a row and is known, and so is a
row that can be seen from a reading of the clock on. -/
structure Listed (c : Cell) (since : Nat) : Prop where
  backed (h : c.copy.isSome) : c.stored.isSome
  resident (h : c.copy.isSome) : c.known = true
  stored {entry : Entry} (h : c.stored = some entry) (hlive : entry.isExpired since = false) :
    c.known = true

namespace Listed

variable {c : Cell} {since now : Nat} {entry : Entry}

theorem absent (since : Nat) : Cell.absent.Listed since := ⟨nofun, nofun, nofun⟩

theorem dropped (h : c.Listed since) : ({ c with copy := none } : Cell).Listed since :=
  ⟨nofun, nofun, h.stored⟩

theorem learned (h : c.Listed since) : ({ c with known := true } : Cell).Listed since :=
  ⟨h.backed, fun _ => rfl, fun _ _ => rfl⟩

theorem promoted (h : c.Listed since) (hstored : c.stored.isSome) (hknown : c.known = true)
    (row : Row) : ({ c with copy := some row } : Cell).Listed since :=
  ⟨fun _ => hstored, fun _ => hknown, h.stored⟩

theorem written (h : c.Written entry) (since : Nat) : c.Listed since :=
  ⟨fun _ => by rw [h.stored]; rfl, fun _ => h.known, fun _ _ => h.known⟩

/-- What is seen is known. -/
theorem known_of_live (h : c.Listed since) (hle : since ≤ now) (live : c.Live now) :
    c.known = true := by
  obtain ⟨row, hrow⟩ := live
  rw [visible?, held] at hrow
  cases hcopy : c.copy with
  | some copy => exact h.resident (by rw [hcopy]; rfl)
  | none =>
    rw [hcopy, Option.none_or, Option.filter_eq_some_iff] at hrow
    obtain ⟨hstored, hvisible⟩ := hrow
    obtain ⟨entry, hentry, rfl⟩ := Option.map_eq_some_iff.mp hstored
    apply h.stored hentry
    have hlive := Row.isVisible_of_later hle hvisible
    rwa [entry.isVisible_row, Bool.not_eq_true'] at hlive

theorem retimed (h : c.Listed since) (hle : since ≤ now) (live : c.Live now)
    (expiresAt : Option Nat) : (c.retimed expiresAt).Listed since := by
  have hknown := h.known_of_live hle live
  refine ⟨?_, fun _ => hknown, fun _ _ => hknown⟩
  intro hcopy
  rw [Cell.retimed, Option.isSome_map] at hcopy ⊢
  exact h.backed hcopy

end Listed

/-- What holds of a key in both tiers. -/
structure Orderly (c : Cell) (spared : Prop) (since : Nat) : Prop where
  agrees : c.Agrees
  listed : spared ∨ c.Listed since

namespace Orderly

variable {c : Cell} {spared : Prop} {since now : Nat} {entry : Entry}

theorem absent (spared : Prop) (since : Nat) : Cell.absent.Orderly spared since :=
  ⟨nofun, .inr (.absent since)⟩

theorem dropped (h : c.Orderly spared since) :
    ({ c with copy := none } : Cell).Orderly spared since :=
  ⟨nofun, h.listed.imp_right (·.dropped)⟩

theorem learned (h : c.Orderly spared since) :
    ({ c with known := true } : Cell).Orderly spared since :=
  ⟨h.agrees, h.listed.imp_right (·.learned)⟩

theorem promoted (h : c.Orderly spared since) (hstored : c.stored = some entry)
    (hknown : c.Listed since → c.known = true) :
    ({ c with copy := some entry.row } : Cell).Orderly spared since := by
  refine ⟨?_, h.listed.imp_right fun listed => ?_⟩
  · rintro row found ⟨⟩ hfound
    cases hstored.symm.trans hfound
    rfl
  · exact listed.promoted (by rw [hstored]; rfl) (hknown listed) entry.row

theorem written (h : c.Written entry) (spared : Prop) (since : Nat) : c.Orderly spared since := by
  refine ⟨?_, .inr (.written h since)⟩
  intro row found hrow hfound
  cases h.stored.symm.trans hfound
  obtain hnone | hsome := h.copy
  · cases hnone.symm.trans hrow
  · exact Option.some.inj (hsome.symm.trans hrow)

theorem retimed (h : c.Orderly spared since) (hle : since ≤ now) (live : c.Live now)
    (expiresAt : Option Nat) : (c.retimed expiresAt).Orderly spared since := by
  refine ⟨?_, h.listed.imp_right (·.retimed hle live expiresAt)⟩
  intro row entry hrow hentry
  obtain ⟨copy, hcopy, rfl⟩ := Option.map_eq_some_iff.mp hrow
  obtain ⟨found, hfound, rfl⟩ := Option.map_eq_some_iff.mp hentry
  rw [← h.agrees copy found hcopy hfound]
  rfl

/-- An entry in memory that is not spared has a row with the same contents. -/
theorem held_eq (h : c.Orderly False since) : c.held = c.stored.map Entry.row := by
  rw [held]
  cases hcopy : c.copy with
  | none => rfl
  | some row =>
    obtain ⟨entry, hentry⟩ := Option.isSome_iff_exists.mp
      ((h.listed.resolve_left id).backed (by rw [hcopy]; rfl))
    rw [hentry, Option.some_or, Option.map_some, h.agrees row entry hcopy hentry]

/-- A row that is seen and not spared is not expired. -/
theorem stored_of_live (h : c.Orderly False since) (live : c.Live now) :
    c.stored.filter (!·.isExpired now) = c.stored := by
  obtain ⟨row, hrow⟩ := live
  rw [visible?, h.held_eq, Option.filter_eq_some_iff] at hrow
  obtain ⟨hheld, hvisible⟩ := hrow
  obtain ⟨entry, hentry, rfl⟩ := Option.map_eq_some_iff.mp hheld
  rw [entry.isVisible_row] at hvisible
  rw [hentry, Option.filter_some, if_pos hvisible]

end Orderly
end Cell

/-- An entry in memory is one of its key, and a picky store can hold it. -/
structure Entry.Filed (entry : Entry) (picky : Prop) (region key : String) : Prop where
  ofRegion : entry.region = region
  ofKey : entry.key = key
  fits : entry.Fits picky

/-- An engine, and the rows of its store. -/
structure Tiers {σ : Type} (picky : Prop) (stands : σ → Table → Prop)
    (spared : String → String → Prop) (since : Nat) (e : Engine σ) (t : Table) : Prop where
  stored : stands e.store t
  named : t.Named
  filed {region key : String} {entry : Entry}
    (h : (e.regionD region).memory[key]? = some entry) : entry.Filed picky region key
  cells (region key : String) : (e.cell t region key).Orderly (spared region key) since

namespace Tiers

variable {σ : Type} {picky : Prop} {stands : σ → Table → Prop} {spared : String → String → Prop}
  {since : Nat} {e : Engine σ} {t : Table}

/-- A fresh engine over any rows that are spared or expired. -/
theorem fresh {store : σ} (h : stands store t) (named : t.Named)
    (hspared : ∀ region key entry, t.get? region key = some entry →
      entry.isExpired since = true ∨ spared region key) (capacity : Nat) (defaultRegion : String) :
    Tiers picky stands spared since (Engine.fresh store capacity defaultRegion) t := by
  have hcell (region key : String) :
      (Engine.fresh store capacity defaultRegion).cell t region key =
        ⟨false, none, t.get? region key⟩ := by
    rw [Engine.cell, Engine.regionD_fresh]
    simp
  refine ⟨h, named, ?_, ?_⟩
  · intro region key entry hm
    simp at hm
  · intro region key
    rw [hcell]
    refine ⟨by simp [Cell.Agrees], ?_⟩
    by_cases hkey : spared region key
    · exact .inl hkey
    refine .inr ⟨by simp, by simp, ?_⟩
    intro entry hentry hlive
    exact absurd ((hspared region key entry hentry).resolve_right hkey)
      (Bool.eq_false_iff.mp hlive)

/-- Only the regions and what the store stands for matter. -/
theorem of_regions (h : Tiers picky stands spared since e t) {e' : Engine σ}
    (stored : stands e'.store t) (regions : e'.regions = e.regions) :
    Tiers picky stands spared since e' t := by
  have hsame := Engine.regionD_of_regions regions
  refine ⟨stored, h.named, ?_, ?_⟩
  · intro region key entry hm
    rw [hsame] at hm
    exact h.filed hm
  · intro region key
    rw [Engine.cell_congr (hsame region)]
    exact h.cells region key

theorem withStore (h : Tiers picky stands spared since e t) {s : σ} (hs : stands s t) :
    Tiers picky stands spared since { e with store := s } t :=
  h.of_regions hs rfl

/-- What is seen of a key that is not spared is known. -/
theorem known_of_live (h : Tiers picky stands spared since e t) {now : Nat} (hle : since ≤ now)
    {region key : String} (hkey : ¬spared region key) (live : (e.cell t region key).Live now) :
    (e.regionD region).known.contains key = true :=
  ((h.cells region key).listed.resolve_left hkey).known_of_live hle live

theorem ensureRegion (h : Tiers picky stands spared since e t) (region : String) :
    Tiers picky stands spared since (e.ensureRegion region) t := by
  refine ⟨?_, h.named, ?_, ?_⟩
  · rw [Engine.store_ensureRegion]
    exact h.stored
  · intro other key entry hm
    rw [e.regionD_ensureRegion] at hm
    exact h.filed hm
  · intro other key
    rw [Engine.cell_congr (e.regionD_ensureRegion region other)]
    exact h.cells other key

theorem tryReserve (h : Tiers picky stands spared since e t) :
    Tiers picky stands spared since e.tryReserve.2 t :=
  h.of_regions (by rw [e.store_tryReserve]; exact h.stored) e.regions_tryReserve

/-- Entries may leave memory to make room. -/
theorem reserve (h : Tiers picky stands spared since e t) :
    Tiers picky stands spared since e.reserve.2 t ∧ ∀ region key,
      e.reserve.2.cell t region key = e.cell t region key ∨
        e.reserve.2.cell t region key = { e.cell t region key with copy := none } := by
  have hcells (region key : String) : e.reserve.2.cell t region key = e.cell t region key ∨
      e.reserve.2.cell t region key = { e.cell t region key with copy := none } := by
    rw [Engine.cell, e.known_reserve]
    cases hm : (e.reserve.2.regionD region).memory[key]? with
    | none => exact .inr rfl
    | some entry =>
      refine .inl ?_
      rw [Engine.cell, e.shrinks_reserve region key entry hm]
  refine ⟨⟨?_, h.named, ?_, ?_⟩, hcells⟩
  · rw [Engine.store_reserve]
    exact h.stored
  · intro region key entry hm
    exact h.filed (e.shrinks_reserve region key entry hm)
  · intro region key
    obtain heq | heq := hcells region key
    · rw [heq]
      exact h.cells region key
    · rw [heq]
      exact (h.cells region key).dropped

theorem know (h : Tiers picky stands spared since e t) (region key : String) :
    Tiers picky stands spared since (e.know region key) t := by
  refine ⟨h.stored, h.named, ?_, ?_⟩
  · intro other name entry hm
    rw [e.memory_know] at hm
    exact h.filed hm
  · intro other name
    rw [Engine.cell_know]
    split
    · exact (h.cells other name).learned
    · exact h.cells other name

/-- An entry with the contents of its row is put into memory. -/
theorem hold (h : Tiers picky stands spared since e t) {region key : String} {entry : Entry}
    (hfiled : entry.Filed picky region key)
    (hcell : ({ e.cell t region key with copy := some entry.row } : Cell).Orderly
      (spared region key) since) :
    Tiers picky stands spared since (e.hold region key entry) t := by
  refine ⟨h.stored, h.named, ?_, ?_⟩
  · intro other name found hm
    rw [Engine.memory_hold] at hm
    split at hm
    · rename_i hname
      obtain ⟨rfl, rfl⟩ := hname
      cases hm
      exact hfiled
    · exact h.filed hm
  · intro other name
    rw [Engine.cell_hold]
    split
    · rename_i hname
      obtain ⟨rfl, rfl⟩ := hname
      exact hcell
    · exact h.cells other name

theorem install (h : Tiers picky stands spared since e t) {region : String} {entry : Entry}
    (hfiled : entry.Filed picky region entry.key)
    (hcell : ({ e.cell t region entry.key with copy := some entry.row } : Cell).Orderly
      (spared region entry.key) since) (reserved : Bool) :
    Tiers picky stands spared since (e.install region entry reserved).2 t := by
  have hs : stands (e.install region entry reserved).2.store t := by
    rw [Engine.store_install]
    exact h.stored
  obtain hheld | ⟨-, hkept⟩ := e.regions_install region entry reserved
  · exact (h.hold hfiled hcell).of_regions hs hheld
  · exact h.of_regions hs hkept

end Tiers
end TierCache
