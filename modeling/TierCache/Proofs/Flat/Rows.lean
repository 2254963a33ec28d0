import TierCache.Proofs.Flat.Basic
import TierCache.Proofs.Tree

/-! The rows of the flat cache: which of them are visible, and what is left after some are removed. -/
namespace TierCache
open Std

theorem Entry.isVisible_row (entry : Entry) (now : Nat) :
    entry.row.isVisible now = !entry.isExpired now := by
  unfold Row.isVisible Entry.isExpired Entry.row
  cases entry.expiresAt with
  | none => rfl
  | some t => by_cases h : t ≤ now <;> simp [h, Nat.not_lt.mpr, Nat.not_le.mp]

/-- What is visible later is visible now, unless the clock was set back. -/
theorem Row.isVisible_of_later {row : Row} {now later : Nat} (hle : now ≤ later)
    (h : row.isVisible later = true) : row.isVisible now = true := by
  unfold Row.isVisible at h ⊢
  split at h
  · simp only [decide_eq_true_eq] at h ⊢
    omega
  · rfl

theorem Entry.secondsLeft_row (entry : Entry) (now : Nat) :
    entry.row.secondsLeft now = entry.secondsLeft now := by
  unfold Row.secondsLeft Entry.secondsLeft Entry.timeLeft Entry.row
  cases entry.expiresAt with
  | none => rfl
  | some t =>
    have hpos : 0 < (t - now) / 1000 ↔ 1000 ≤ t - now := Nat.div_pos_iff.trans (by simp)
    simp only [Option.map_some, hpos]

theorem RowId.compare_eq (a b : RowId) :
    compare a b = (compare a.region b.region).then (compare a.key b.key) := rfl

namespace Flat

/-! ### Visible rows -/

theorem visible?_of_row_none {f : Flat} {region key : String}
    (h : f.row? region key = none) (now : Nat) : f.visible? now region key = none := by
  rw [Flat.visible?, h]
  rfl

theorem isSome_of_visible {f : Flat} {now : Nat} {region key : String}
    (h : (f.visible? now region key).isSome) : (f.row? region key).isSome := by
  cases hrow : f.row? region key with
  | none => simp [visible?_of_row_none hrow] at h
  | some row => rfl

theorem isSome_visible (f : Flat) (now : Nat) (region key : String) :
    (f.visible? now region key).isSome ↔
      ∃ row, f.rows[RowId.mk region key]? = some row ∧ row.isVisible now := by
  simp only [Option.isSome_iff_exists, visible?, row?, Option.filter_eq_some_iff]

theorem mem_keys (f : Flat) (now : Nat) (region pattern key : String) :
    key ∈ f.keys now region pattern ↔
      (f.visible? now region key).isSome ∧ Glob.accepts pattern key := by
  rw [isSome_visible]
  simp only [keys, List.mem_map, List.mem_filter, Prod.exists, Bool.and_eq_true,
    ExtTreeMap.mem_toList_iff_getElem?_eq_some, decide_eq_true_eq]
  constructor
  · rintro ⟨⟨_, _⟩, row, ⟨hrow, ⟨rfl, hvisible⟩, haccepts⟩, rfl⟩
    exact ⟨⟨row, hrow, hvisible⟩, haccepts⟩
  · rintro ⟨⟨row, hrow, hvisible⟩, haccepts⟩
    exact ⟨⟨region, key⟩, row, ⟨hrow, ⟨rfl, hvisible⟩, haccepts⟩, rfl⟩

/-- The keys of rows of one region come in order: the rows do, and differ in the key alone. -/
theorem ordered_keys (f : Flat) {region : String} {among : RowId × Row → Bool}
    (h : ∀ row, among row = true → row.1.region = region) :
    ((f.rows.toList.filter among).map (·.1.key)).Pairwise fun a b => compare a b = .lt := by
  rw [List.pairwise_map]
  refine (f.rows.ordered_keys_toList.filter among).imp_of_mem ?_
  intro a b ha hb hab
  have hregion : a.1.region = b.1.region :=
    (h a (List.mem_filter.mp ha).2).trans (h b (List.mem_filter.mp hb).2).symm
  rw [RowId.compare_eq, hregion] at hab
  simpa using hab

theorem keys_ordered (f : Flat) (now : Nat) (region pattern : String) :
    (f.keys now region pattern).Pairwise fun a b => compare a b = .lt := by
  apply f.ordered_keys
  intro row hrow
  simp only [Bool.and_eq_true, decide_eq_true_eq] at hrow
  exact hrow.1.1

theorem count_eq (f : Flat) (region : String) :
    f.count region = f.rows.toList.countP fun row => row.1.region = region := by
  rw [count, ← ExtTreeMap.length_toList, ExtTreeMap.toList_filter, List.countP_eq_length_filter]

/-! ### Removed rows -/

theorem contains_rows (f : Flat) (region key : String) :
    f.rows.contains ⟨region, key⟩ = (f.row? region key).isSome :=
  ExtTreeMap.contains_eq_isSome_getElem?

theorem erase_of_none {f : Flat} {region key : String} (h : f.row? region key = none) :
    f.erase region key = f := by
  rw [erase, Tree.erase_of_none f.rows h]

theorem delete_of_none (f : Flat) {region : String} (h : ∀ key, f.row? region key = none)
    (keys : List String) : f.delete region keys = (0, f) := by
  induction keys with
  | nil => rfl
  | cons key rest ih =>
    rw [delete, f.contains_rows, h]
    exact ih

variable (f : Flat)

theorem row?_keep (stays : RowId → Row → Bool) (region key : String) :
    (f.keep stays).row? region key = (f.row? region key).filter (stays ⟨region, key⟩) :=
  ExtTreeMap.getElem?_filter'

theorem row?_place (region key other name : String) (row : Row) :
    (f.place region key row).row? other name =
      if (⟨region, key⟩ : RowId) = ⟨other, name⟩ then some row else f.row? other name :=
  Tree.get_insert _ _ _ _

theorem row?_erase (region key other name : String) : (f.erase region key).row? other name =
    if (⟨region, key⟩ : RowId) = ⟨other, name⟩ then none else f.row? other name :=
  Tree.get_erase _ _ _

/-- Two caches that differ in no row do not differ if they come from the same one. -/
theorem ext_rows {rows rows' : ExtTreeMap RowId Row}
    (h : ∀ id : RowId, rows[id]? = rows'[id]?) : { f with rows } = { f with rows := rows' } := by
  rw [ExtTreeMap.ext_getElem? h]

theorem keep_congr {stays stays' : RowId → Row → Bool}
    (h : ∀ id row, f.rows[id]? = some row → stays id row = stays' id row) :
    f.keep stays = f.keep stays' := by
  apply f.ext_rows
  intro id
  rw [ExtTreeMap.getElem?_filter', ExtTreeMap.getElem?_filter']
  cases hrow : f.rows[id]? with
  | none => rfl
  | some row => simp only [Option.filter_some, h id row hrow]

theorem keep_all {stays : RowId → Row → Bool}
    (h : ∀ id row, f.rows[id]? = some row → stays id row = true) : f.keep stays = f := by
  apply f.ext_rows
  intro id
  rw [ExtTreeMap.getElem?_filter']
  cases hrow : f.rows[id]? with
  | none => rfl
  | some row => simp only [Option.filter_some, h id row hrow, if_true]

theorem keep_keep (stays stays' : RowId → Row → Bool) :
    (f.keep stays).keep stays' = f.keep fun id row => stays id row && stays' id row := by
  apply f.ext_rows
  intro id
  simp only [keep, ExtTreeMap.getElem?_filter', Option.filter_filter]

theorem erase_keep (region key : String) (stays : RowId → Row → Bool) :
    (f.erase region key).keep stays =
      f.keep fun id row => decide (id ≠ ⟨region, key⟩) && stays id row := by
  apply f.ext_rows
  intro id
  simp only [erase, ExtTreeMap.getElem?_filter', Tree.get_erase]
  by_cases hid : (⟨region, key⟩ : RowId) = id
  · simp [hid]
  · simp [hid, Ne.symm hid]

end Flat
end TierCache
