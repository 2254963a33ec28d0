import TierCache.Proofs.Tree
import TierCache.Store.Table

/-!
Stores whose calls all succeed. Which table a store stands for is told by a relation, so that any way
of keeping the rows will do.
-/
namespace TierCache
open Std

/-- Every call succeeds, answers from the table that the store stands for, and leaves a store that
stands for the changed table. Lists may come in any order. -/
structure Reliable {σ : Type} [Store σ] (stands : σ → Table → Prop) : Prop where
  save {s : σ} {t : Table} (h : stands s t) (entry : Entry) :
    ∃ s', Store.save entry s = (.ok (), s') ∧ stands s' (t.save entry)
  load {s : σ} {t : Table} (h : stands s t) (region key : String) :
    ∃ s', Store.load region key s = (.ok (t.get? region key), s') ∧ stands s' t
  loadAll {s : σ} {t : Table} (h : stands s t) :
    ∃ rows s', Store.loadAll s = (.ok rows, s') ∧ rows.Perm t.entries ∧ stands s' t
  delete {s : σ} {t : Table} (h : stands s t) (region key : String) :
    ∃ s', Store.delete region key s = (.ok (), s') ∧ stands s' (t.erase region key)
  deleteRegion {s : σ} {t : Table} (h : stands s t) (region : String) :
    ∃ s', Store.deleteRegion region s = (.ok (), s') ∧ stands s' (t.eraseRegion region)
  updateExpiry {s : σ} {t : Table} (h : stands s t) (region key : String)
    (expiresAt : Option Nat) : ∃ s', Store.updateExpiry region key expiresAt s = (.ok (), s') ∧
      stands s' (t.setExpiry region key expiresAt)
  deleteExpired {s : σ} {t : Table} (h : stands s t) (now : Nat) :
    ∃ s', Store.deleteExpired now s = (.ok (t.rows.size - (t.eraseExpired now).rows.size), s') ∧
      stands s' (t.eraseExpired now)
  count {s : σ} {t : Table} (h : stands s t) (region : String) :
    ∃ s', Store.count region s = (.ok (t.regionRows region).length, s') ∧ stands s' t
  regions {s : σ} {t : Table} (h : stands s t) :
    ∃ names s', Store.regions s = (.ok names, s') ∧ (∀ name, name ∈ names ↔ name ∈ t.regionNames) ∧
      stands s' t

namespace Table

/-- A table stands for itself. -/
theorem reliable : Reliable (Eq : Table → Table → Prop) where
  save h entry := ⟨_, rfl, h ▸ rfl⟩
  load h region key := ⟨_, by rw [h]; rfl, rfl⟩
  loadAll h := ⟨_, _, rfl, h ▸ .refl _, h⟩
  delete h region key := ⟨_, rfl, h ▸ rfl⟩
  deleteRegion h region := ⟨_, rfl, h ▸ rfl⟩
  updateExpiry h region key expiresAt := ⟨_, rfl, h ▸ rfl⟩
  deleteExpired h now := ⟨_, by rw [h]; rfl, rfl⟩
  count h region := ⟨_, by rw [h]; rfl, rfl⟩
  regions h := ⟨_, _, rfl, fun _ => by rw [h], h⟩

section Rows
variable (t : Table)

theorem rows_save (entry : Entry) (id : RowId) : (t.save entry).rows[id]? =
    if (⟨entry.region, entry.key⟩ : RowId) = id then some entry else t.rows[id]? :=
  Tree.get_insert _ _ _ _

theorem rows_erase (region key : String) (id : RowId) : (t.erase region key).rows[id]? =
    if (⟨region, key⟩ : RowId) = id then none else t.rows[id]? :=
  Tree.get_erase _ _ _

theorem rows_eraseRegion (region : String) (id : RowId) : (t.eraseRegion region).rows[id]? =
    t.rows[id]?.filter fun _ => id.region ≠ region :=
  ExtTreeMap.getElem?_filter'

theorem get_eraseRegion (region : String) (id : RowId) :
    (t.eraseRegion region).rows[id]? = if id.region = region then none else t.rows[id]? := by
  rw [rows_eraseRegion]
  cases t.rows[id]? with
  | none => simp
  | some e => simp [Option.filter]

theorem rows_eraseExpired (now : Nat) (id : RowId) : (t.eraseExpired now).rows[id]? =
    t.rows[id]?.filter fun entry => !entry.isExpired now :=
  ExtTreeMap.getElem?_filter'

theorem rows_setExpiry (region key : String) (expiresAt : Option Nat) (id : RowId) :
    (t.setExpiry region key expiresAt).rows[id]? =
      if (⟨region, key⟩ : RowId) = id then t.rows[id]?.map fun entry => { entry with expiresAt }
      else t.rows[id]? := by
  simp only [setExpiry, ExtTreeMap.getElem?_modify, Std.compare_eq_iff_eq]
  split
  · rename_i h
    rw [h]
  · rfl

theorem mem_entries (entry : Entry) :
    entry ∈ t.entries ↔ ∃ id : RowId, t.rows[id]? = some entry := by
  simp [entries]

theorem mem_regionNames (name : String) :
    name ∈ t.regionNames ↔ ∃ id : RowId, id.region = name ∧ (t.rows[id]?).isSome := by
  simp only [regionNames, ExtTreeSet.mem_toList, ExtTreeSet.mem_ofList, List.contains_iff_mem,
    List.mem_map, Tree.mem_keys_iff]
  constructor
  · rintro ⟨id, hid, hname⟩
    exact ⟨id, hname, hid⟩
  · rintro ⟨id, hname, hid⟩
    exact ⟨id, hid, hname⟩

end Rows

/-- Every row is an entry under its own name. -/
def Named (t : Table) : Prop :=
  ∀ (id : RowId) (e : Entry), t.rows[id]? = some e → e.region = id.region ∧ e.key = id.key

theorem named_empty : empty.Named := by
  intro id e he
  simp [empty] at he

section Named
variable {t : Table} (h : t.Named)
include h

theorem nodup_entries : t.entries.Nodup := by
  apply Tree.nodup_values _ fun e => RowId.mk e.region e.key
  rintro ⟨region, key⟩ e he
  obtain ⟨rfl, rfl⟩ := h _ e he
  rfl

theorem named_save (entry : Entry) : (t.save entry).Named := by
  intro id e he
  rw [rows_save] at he
  split at he
  · cases he
    rename_i heq
    exact heq ▸ ⟨rfl, rfl⟩
  · exact h id e he

theorem named_erase (region key : String) : (t.erase region key).Named := by
  intro id e he
  rw [rows_erase] at he
  split at he
  · cases he
  · exact h id e he

theorem named_eraseRegion (region : String) : (t.eraseRegion region).Named := by
  intro id e he
  rw [get_eraseRegion] at he
  split at he
  · cases he
  · exact h id e he

theorem named_setExpiry (region key : String) (expiresAt : Option Nat) :
    (t.setExpiry region key expiresAt).Named := by
  intro id e he
  rw [rows_setExpiry] at he
  split at he
  · obtain ⟨old, hold, rfl⟩ := Option.map_eq_some_iff.1 he
    exact h id old hold
  · exact h id e he

theorem named_eraseExpired (now : Nat) : (t.eraseExpired now).Named := by
  intro id e he
  rw [rows_eraseExpired, Option.filter_eq_some_iff] at he
  exact h id e he.1

end Named
end Table
end TierCache
