import TierCache.Proofs.Engine.Memory
import TierCache.Proofs.Flat.Rows
import TierCache.Proofs.Store.Reliable

/-!
When an engine mirrors a flat cache: its store holds the rows, its known keys are those of the rows,
and every entry in memory is a copy of a row. Moves between the tiers do not touch that.
-/
namespace TierCache
open Std

/-- The table holds the rows, each under its own name. -/
structure Table.Holds (t : Table) (rows : ExtTreeMap RowId Row) : Prop where
  named {id : RowId} {entry : Entry} (h : t.rows[id]? = some entry) :
    entry.region = id.region ∧ entry.key = id.key
  rows (id : RowId) : t.rows[id]?.map Entry.row = rows[id]?

namespace Table.Holds

variable {t : Table} {rows : ExtTreeMap RowId Row}

theorem toNamed (h : t.Holds rows) : t.Named := fun _ _ => h.named

theorem rows_eq (h : t.Holds rows) : rows = t.rows.map fun _ entry => entry.row := by
  apply ExtTreeMap.ext_getElem?
  intro id
  rw [ExtTreeMap.getElem?_map]
  exact (h.rows id).symm

theorem length_regionRows (h : t.Holds rows) (region : String) :
    (t.regionRows region).length = (rows.filter fun id _ => id.region = region).size := by
  rw [h.rows_eq, Table.regionRows, ← ExtTreeMap.length_toList, ExtTreeMap.toList_filter,
    ExtTreeMap.toList_map, List.filter_map, List.length_map]
  rfl

/-- The entries not expired are as many as the rows that are visible. -/
theorem length_live (h : t.Holds rows) (now : Nat) :
    (t.entries.filter (!·.isExpired now)).length =
      (rows.filter fun _ row => row.isVisible now).size := by
  rw [h.rows_eq, Table.entries, ← ExtTreeMap.length_toList, ExtTreeMap.toList_filter,
    ExtTreeMap.toList_map, List.filter_map, List.filter_map, List.length_map, List.length_map]
  simp only [Function.comp_def, Entry.isVisible_row]

theorem save (h : t.Holds rows) (entry : Entry) :
    (t.save entry).Holds (rows.insert ⟨entry.region, entry.key⟩ entry.row) := by
  refine ⟨t.named_save h.toNamed entry _ _, ?_⟩
  intro id
  rw [t.rows_save, Tree.get_insert]
  split
  · rfl
  · exact h.rows id

theorem erase (h : t.Holds rows) (region key : String) :
    (t.erase region key).Holds (rows.erase ⟨region, key⟩) := by
  refine ⟨t.named_erase h.toNamed region key _ _, ?_⟩
  intro id
  rw [t.rows_erase, Tree.get_erase]
  split
  · rfl
  · exact h.rows id

theorem eraseRegion (h : t.Holds rows) (region : String) :
    (t.eraseRegion region).Holds (rows.filter fun id _ => id.region ≠ region) := by
  refine ⟨t.named_eraseRegion h.toNamed region _ _, ?_⟩
  intro id
  rw [t.rows_eraseRegion, ExtTreeMap.getElem?_filter', ← h.rows id, Option.filter_map]
  rfl

theorem eraseExpired (h : t.Holds rows) (now : Nat) :
    (t.eraseExpired now).Holds (rows.filter fun _ row => row.isVisible now) := by
  refine ⟨t.named_eraseExpired h.toNamed now _ _, ?_⟩
  intro id
  rw [t.rows_eraseExpired, ExtTreeMap.getElem?_filter', ← h.rows id, Option.filter_map]
  simp only [Function.comp_def, Entry.isVisible_row]

theorem setExpiry (h : t.Holds rows) {region key : String} {row : Row}
    (hrow : rows[RowId.mk region key]? = some row) (expiresAt : Option Nat) :
    (t.setExpiry region key expiresAt).Holds (rows.insert ⟨region, key⟩ { row with expiresAt }) := by
  refine ⟨t.named_setExpiry h.toNamed region key expiresAt _ _, ?_⟩
  intro id
  rw [t.rows_setExpiry, Tree.get_insert]
  split
  · rename_i heq
    have hid := h.rows id
    rw [← heq, hrow] at hid
    obtain ⟨entry, hentry, rfl⟩ := Option.map_eq_some_iff.mp hid
    rw [← heq, hentry]
    rfl
  · exact h.rows id

end Table.Holds

/-- The entry is a copy of the row of a key. -/
structure Entry.Copies (entry : Entry) (rows : ExtTreeMap RowId Row) (region key : String) :
    Prop where
  ofRegion : entry.region = region
  ofKey : entry.key = key
  ofRow : rows[RowId.mk region key]? = some entry.row

theorem Entry.Copies.of_agree {entry : Entry} {rows rows' : ExtTreeMap RowId Row}
    {region key : String} (h : entry.Copies rows region key)
    (hrow : rows'[RowId.mk region key]? = rows[RowId.mk region key]?) :
    entry.Copies rows' region key :=
  ⟨h.ofRegion, h.ofKey, hrow.trans h.ofRow⟩

/-- The engine answers for the rows of a flat cache. -/
structure Mirrors {σ : Type} (stands : σ → Table → Prop) (e : Engine σ) (f : Flat) : Prop where
  stored : ∃ t, stands e.store t ∧ t.Holds f.rows
  known (region key : String) :
    (e.regionD region).known.contains key = (f.row? region key).isSome
  copied {region key : String} {entry : Entry}
    (h : (e.regionD region).memory[key]? = some entry) : entry.Copies f.rows region key
  defaultRegion : e.defaultRegion = f.defaultRegion
  hits : e.stats.hits = f.hits
  misses : e.stats.misses = f.misses
  told : e.signals.map Signal.notice = f.told

namespace Mirrors

variable {σ : Type} {stands : σ → Table → Prop} {e : Engine σ} {f : Flat}

/-- A fresh engine over an empty store mirrors the empty flat cache. -/
theorem fresh {store : σ} (h : stands store .empty) (capacity : Nat) (defaultRegion : String) :
    Mirrors stands (Engine.fresh store capacity defaultRegion) (.empty defaultRegion) := by
  have hnone (region key : String) : (Flat.empty defaultRegion).row? region key = none := by
    simp [Flat.empty, Flat.row?]
  refine ⟨⟨.empty, h, ?_, ?_⟩, ?_, ?_, rfl, rfl, rfl, rfl⟩
  · intro id entry hid
    simp [Table.empty] at hid
  · intro id
    simp [Table.empty, Flat.empty]
  · intro region key
    rw [Engine.regionD_fresh, hnone]
    simp
  · intro region key entry hm
    rw [Engine.regionD_fresh] at hm
    simp at hm

/-- Another store that stands for the same rows will do. -/
theorem withStore (h : Mirrors stands e f) {s : σ} (hs : ∃ t, stands s t ∧ t.Holds f.rows) :
    Mirrors stands { e with store := s } f :=
  ⟨hs, h.known, h.copied, h.defaultRegion, h.hits, h.misses, h.told⟩

/-- A change of rows in one region is mirrored by a change of that region's state. -/
theorem rewrite (h : Mirrors stands e f) {rows : ExtTreeMap RowId Row} {region : String}
    {s : Region} {store : σ} (stored : ∃ t, stands store t ∧ t.Holds rows)
    (frame : ∀ id : RowId, id.region ≠ region → rows[id]? = f.rows[id]?)
    (known : ∀ key, s.known.contains key = (rows[RowId.mk region key]?).isSome)
    (copied : ∀ (key : String) (entry : Entry), s.memory[key]? = some entry →
      entry.Copies rows region key) :
    Mirrors stands ({ e with store }.setRegion region s) { f with rows } := by
  refine ⟨stored, ?_, ?_, h.defaultRegion, h.hits, h.misses, h.told⟩
  · intro other key
    rw [Engine.regionD_setRegion]
    split
    · rename_i heq
      exact heq ▸ known key
    · rename_i hne
      rw [Flat.row?, frame ⟨other, key⟩ (Ne.symm hne)]
      exact h.known other key
  · intro other key entry hm
    rw [Engine.regionD_setRegion] at hm
    split at hm
    · rename_i heq
      exact heq ▸ copied key entry hm
    · rename_i hne
      have hcopy := h.copied hm
      exact ⟨hcopy.ofRegion, hcopy.ofKey, (frame ⟨other, key⟩ (Ne.symm hne)).trans hcopy.ofRow⟩

/-- What is known of a region stays, and what is in memory afterwards copies rows. -/
theorem setRegion (h : Mirrors stands e f) {region : String} {s : Region}
    (known : ∀ key, s.known.contains key = (f.row? region key).isSome)
    (copied : ∀ (key : String) (entry : Entry), s.memory[key]? = some entry →
      entry.Copies f.rows region key) :
    Mirrors stands (e.setRegion region s) f :=
  h.rewrite h.stored (fun _ _ => rfl) known copied

/-- A region that is missing has no rows. -/
theorem row_none (h : Mirrors stands e f) {region : String} (hregion : e.region? region = none)
    (key : String) : f.row? region key = none := by
  have hknown := h.known region key
  rw [Engine.regionD_of_none hregion] at hknown
  simpa using hknown.symm

theorem ensureRegion (h : Mirrors stands e f) (region : String) :
    Mirrors stands (e.ensureRegion region) f := by
  obtain ⟨-, heq⟩ | ⟨hnone, heq⟩ := e.ensureRegion_cases region
  · rwa [heq]
  · rw [heq]
    have hk := h.known region
    rw [Engine.regionD_of_none hnone] at hk
    exact h.setRegion hk (by simp)

/-! ### Memory -/

theorem tryReserve (h : Mirrors stands e f) : Mirrors stands e.tryReserve.2 f := by
  unfold Engine.tryReserve
  split
  · exact ⟨h.stored, h.known, h.copied, h.defaultRegion, h.hits, h.misses, h.told⟩
  · exact h

theorem release (h : Mirrors stands e f) : Mirrors stands e.release f :=
  ⟨h.stored, h.known, h.copied, h.defaultRegion, h.hits, h.misses, h.told⟩

/-- An entry less in memory is no row less. -/
theorem dropCopy (h : Mirrors stands e f) (region key : String) (lru : Lru) :
    Mirrors stands (e.setRegion region { e.regionD region with
      memory := (e.regionD region).memory.erase key, lru }) f := by
  apply h.setRegion
  · exact h.known region
  · intro other entry hm
    rw [Tree.get_erase] at hm
    split at hm
    · cases hm
    · exact h.copied hm

theorem evictOne (h : Mirrors stands e f) : Mirrors stands e.evictOne.2 f := by
  unfold Engine.evictOne
  split
  · exact h
  · rename_i region key _ _
    have hdrop := h.dropCopy region key ((e.regionD region).lru.remove key)
    dsimp only
    split
    · have hfreed := hdrop.release
      exact ⟨hfreed.stored, hfreed.known, hfreed.copied, hfreed.defaultRegion, hfreed.hits,
        hfreed.misses, hfreed.told⟩
    · exact hdrop

theorem reserve (h : Mirrors stands e f) : Mirrors stands e.reserve.2 f :=
  Engine.reserve_keeps (P := (Mirrors stands · f)) (fun _ => tryReserve) (fun _ => evictOne) h

/-- A copy of a row may be held in memory. -/
theorem hold (h : Mirrors stands e f) {region key : String} {entry : Entry}
    (hc : entry.Copies f.rows region key) : Mirrors stands (e.hold region key entry) f := by
  have hplaced : Mirrors stands (e.setRegion region { e.regionD region with
      memory := (e.regionD region).memory.insert key entry,
      lru := (e.regionD region).lru.touch key (e.clock + 1) }) f := by
    apply h.setRegion
    · exact h.known region
    · intro other copy hm
      rw [Tree.get_insert] at hm
      split at hm
      · rename_i heq
        cases hm
        exact heq ▸ hc
      · exact h.copied hm
  exact ⟨hplaced.stored, hplaced.known, hplaced.copied, hplaced.defaultRegion, hplaced.hits,
    hplaced.misses, hplaced.told⟩

theorem install (h : Mirrors stands e f) {region key : String} {entry : Entry}
    (hc : entry.Copies f.rows region key) (reserved : Bool) :
    Mirrors stands (e.install region entry reserved).2 f := by
  obtain rfl := hc.ofKey
  unfold Engine.install
  split
  · dsimp only
    split
    · exact (h.hold hc).release
    · exact h.hold hc
  · split
    · exact h.hold hc
    · have htry := h.tryReserve
      split
      · rename_i heq
        rw [heq] at htry
        exact htry.hold hc
      · rename_i heq
        rwa [heq] at htry

/-! ### Telling -/

theorem signal (h : Mirrors stands e f) (s : Signal) :
    Mirrors stands (e.signal s) (f.tell [s.notice]) :=
  ⟨h.stored, h.known, h.copied, h.defaultRegion, h.hits, h.misses, by
    simp [Engine.signal, Flat.tell, h.told]⟩

theorem announce (h : Mirrors stands e f) (m : Mutation) (region key : String)
    (kind : ChangeKind) :
    Mirrors stands (e.announce m region key kind) (f.tell [m.notice, .change region key kind]) := by
  have htold := (h.signal (.mutation m)).signal (.change region key kind)
  simp only [Flat.tell, List.append_assoc] at htold
  exact htold

end Mirrors
end TierCache
