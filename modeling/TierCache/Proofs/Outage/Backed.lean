import TierCache.Proofs.Engine.Memory
import TierCache.Proofs.Flat.Rows
import TierCache.Proofs.Store.Faulty

/-!
What holds of an engine whose store may fail at any call: every known key has a row, and an entry in
memory says nothing else than the row of its key, if there is one. A failed removal may leave a row
that is not known, and a purge may take the row of an entry in memory, but no row and no entry in
memory ever contradict each other.
-/
namespace TierCache
open Std

theorem Entry.isExpired_of_row {a b : Entry} (h : a.row = b.row) (now : Nat) :
    a.isExpired now = b.isExpired now := by
  have ha := a.isVisible_row now
  rw [h, b.isVisible_row] at ha
  simpa using ha.symm

namespace Table
variable (t : Table) (region key other name : String)

theorem get?_save (entry : Entry) : (t.save entry).get? other name =
    if (⟨entry.region, entry.key⟩ : RowId) = ⟨other, name⟩ then some entry else t.get? other name :=
  t.rows_save entry _

theorem get?_erase : (t.erase region key).get? other name =
    if (⟨region, key⟩ : RowId) = ⟨other, name⟩ then none else t.get? other name :=
  t.rows_erase region key _

theorem get?_eraseRegion : (t.eraseRegion region).get? other name =
    if other = region then none else t.get? other name :=
  t.get_eraseRegion region _

theorem get?_setExpiry (expiresAt : Option Nat) : (t.setExpiry region key expiresAt).get? other name =
    if (⟨region, key⟩ : RowId) = ⟨other, name⟩ then
      (t.get? other name).map fun entry => { entry with expiresAt }
    else t.get? other name :=
  t.rows_setExpiry region key expiresAt _

theorem get?_eraseExpired (now : Nat) : (t.eraseExpired now).get? other name =
    (t.get? other name).filter fun entry => !entry.isExpired now :=
  t.rows_eraseExpired now _

end Table

/-- The entry is one of the key, and with the contents of the key's row if there is a row. -/
structure Entry.Agrees (entry : Entry) (t : Table) (region key : String) : Prop where
  ofRegion : entry.region = region
  ofKey : entry.key = key
  ofRow {row : Entry} (h : t.get? region key = some row) : row.row = entry.row

/-- Rows that are gone contradict nothing. -/
theorem Entry.Agrees.of_subset {entry : Entry} {t t' : Table} {region key : String}
    (h : entry.Agrees t region key)
    (hsub : ∀ row, t'.get? region key = some row → t.get? region key = some row) :
    entry.Agrees t' region key :=
  ⟨h.ofRegion, h.ofKey, fun hrow => h.ofRow (hsub _ hrow)⟩

/-- An engine over a store that may fail, and the rows behind it. -/
structure Backed {σ : Type} (stands : σ → Table → Prop) (e : Engine (Faulty σ)) (t : Table) :
    Prop where
  stored : stands e.store.inner t
  named : t.Named
  known {region key : String} (h : (e.regionD region).known.contains key = true) :
    (t.get? region key).isSome
  copied {region key : String} {entry : Entry}
    (h : (e.regionD region).memory[key]? = some entry) : entry.Agrees t region key

namespace Backed

variable {σ : Type} {stands : σ → Table → Prop} {e : Engine (Faulty σ)} {t : Table}

theorem fresh {store : Faulty σ} (h : stands store.inner t) (named : t.Named) (capacity : Nat)
    (defaultRegion : String) : Backed stands (Engine.fresh store capacity defaultRegion) t := by
  refine ⟨h, named, ?_, ?_⟩
  · intro region key hknown
    simp at hknown
  · intro region key entry hm
    simp at hm

/-- Only the regions and the store matter. -/
theorem of_eq (h : Backed stands e t) {later : Engine (Faulty σ)}
    (regions : later.regions = e.regions) (store : later.store = e.store) :
    Backed stands later t := by
  obtain ⟨_, _, _, _, _, _, _, _⟩ := later
  simp only at regions store
  subst regions store
  exact ⟨h.stored, h.named, h.known, h.copied⟩

theorem withStore (h : Backed stands e t) {store : Faulty σ} (hs : stands store.inner t) :
    Backed stands { e with store } t :=
  ⟨hs, h.named, h.known, h.copied⟩

/-- One region changes, and with it rows of that region. -/
theorem rewrite (h : Backed stands e t) {t' : Table} {region : String} {s : Region}
    {store : Faulty σ} (stored : stands store.inner t') (named : t'.Named)
    (frame : ∀ other key, region ≠ other → t'.get? other key = t.get? other key)
    (known : ∀ key, s.known.contains key = true → (t'.get? region key).isSome)
    (copied : ∀ (key : String) (entry : Entry), s.memory[key]? = some entry →
      entry.Agrees t' region key) :
    Backed stands ({ e with store }.setRegion region s) t' := by
  refine ⟨stored, named, ?_, ?_⟩
  · intro other key hknown
    rw [Engine.regionD_setRegion] at hknown
    split at hknown
    · rename_i heq
      exact heq ▸ known key hknown
    · rename_i hne
      rw [frame other key hne]
      exact h.known hknown
  · intro other key entry hm
    rw [Engine.regionD_setRegion] at hm
    split at hm
    · rename_i heq
      exact heq ▸ copied key entry hm
    · rename_i hne
      apply (h.copied hm).of_subset
      intro row hrow
      rwa [frame other key hne] at hrow

theorem setRegion (h : Backed stands e t) {region : String} {s : Region}
    (known : ∀ key, s.known.contains key = true → (t.get? region key).isSome)
    (copied : ∀ (key : String) (entry : Entry), s.memory[key]? = some entry →
      entry.Agrees t region key) :
    Backed stands (e.setRegion region s) t :=
  h.rewrite h.stored h.named (fun _ _ _ => rfl) known copied

theorem ensureRegion (h : Backed stands e t) (region : String) :
    Backed stands (e.ensureRegion region) t := by
  obtain ⟨-, heq⟩ | ⟨-, heq⟩ := e.ensureRegion_cases region
  · rwa [heq]
  · rw [heq]
    exact h.setRegion (by simp) (by simp)

theorem know (h : Backed stands e t) {region key : String} (hrow : (t.get? region key).isSome) :
    Backed stands (e.know region key) t := by
  refine ⟨h.stored, h.named, ?_, ?_⟩
  · intro other name hknown
    obtain ⟨rfl, rfl⟩ | hold := (e.known_know region key other name).mp hknown
    · exact hrow
    · exact h.known hold
  · intro other name entry hm
    rw [e.memory_know region key other] at hm
    exact h.copied hm

/-! ### Memory -/

theorem tryReserve (h : Backed stands e t) : Backed stands e.tryReserve.2 t :=
  h.of_eq e.regions_tryReserve e.store_tryReserve

theorem evictOne (h : Backed stands e t) : Backed stands e.evictOne.2 t := by
  unfold Engine.evictOne
  split
  · exact h
  · rename_i region key _ _
    have hdrop : Backed stands (e.setRegion region { e.regionD region with
        memory := (e.regionD region).memory.erase key,
        lru := (e.regionD region).lru.remove key }) t := by
      apply h.setRegion
      · exact fun _ => h.known
      · intro other entry hm
        rw [Tree.get_erase] at hm
        split at hm
        · cases hm
        · exact h.copied hm
    dsimp only
    split
    · exact hdrop.of_eq rfl rfl
    · exact hdrop

theorem reserve (h : Backed stands e t) : Backed stands e.reserve.2 t :=
  Engine.reserve_keeps (P := (Backed stands · t)) (fun _ => tryReserve) (fun _ => evictOne) h

/-- An entry that agrees with the row may be put into memory. -/
theorem install (h : Backed stands e t) {region : String} {entry : Entry}
    (hentry : entry.Agrees t region entry.key) (reserved : Bool) :
    Backed stands (e.install region entry reserved).2 t := by
  refine ⟨?_, h.named, ?_, ?_⟩
  · rw [Engine.store_install]
    exact h.stored
  · intro other key hknown
    rw [Engine.known_install] at hknown
    exact h.known hknown
  · intro other key found hm
    obtain ⟨rfl, rfl, rfl⟩ | ⟨-, hm⟩ := e.memory_install region entry reserved hm
    · exact hentry
    · exact h.copied hm

theorem hold (h : Backed stands e t) {region key : String} {entry : Entry}
    (hentry : entry.Agrees t region key) : Backed stands (e.hold region key entry) t := by
  refine ⟨h.stored, h.named, ?_, ?_⟩
  · intro other name hknown
    rw [Engine.known_hold] at hknown
    exact h.known hknown
  · intro other name found hm
    rw [Engine.memory_hold] at hm
    split at hm
    · rename_i hname
      obtain ⟨rfl, rfl⟩ := hname
      cases hm
      exact hentry
    · exact h.copied hm

end Backed
end TierCache
