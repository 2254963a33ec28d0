import Mathlib.Data.List.Nodup
import TierCache.Proofs.Flat.Reading

/-! The figures of an engine that mirrors a flat cache, residency aside, are those of its rows. -/
namespace TierCache
open Std

theorem sum_indicator {β : Type} [DecidableEq β] (b : β) (classes : List β) :
    (classes.map fun c => if b = c then 1 else 0).sum = classes.count b := by
  induction classes with
  | nil => rfl
  | cons c rest ih =>
    rw [List.map_cons, List.sum_cons, ih, List.count_cons, Nat.add_comm]
    by_cases h : b = c
    · simp [h]
    · simp [h, Ne.symm h]

/-- Every element of a list falls into one of the classes. -/
theorem sum_countP {α β : Type} [DecidableEq β] (g : α → β) {classes : List β}
    (hnodup : classes.Nodup) {l : List α} (hall : ∀ a ∈ l, g a ∈ classes) :
    (classes.map fun b => l.countP fun a => g a = b).sum = l.length := by
  induction l with
  | nil => simp
  | cons a rest ih =>
    have hrest := ih fun b hb => hall b (.tail a hb)
    have hone := List.count_eq_one_of_mem hnodup (hall a (.head rest))
    simp only [List.countP_cons, decide_eq_true_eq, List.sum_map_add, sum_indicator, hrest, hone,
      List.length_cons]

namespace Mirrors

variable {σ : Type} {stands : σ → Table → Prop} {e : Engine σ} {f : Flat}

theorem known_toList (h : Mirrors stands e f) (region : String) :
    (e.regionD region).known.toList =
      (f.rows.toList.filter fun row => row.1.region = region).map (·.1.key) := by
  apply Tree.eq_of_ordered ExtTreeSet.ordered_toList
  · apply f.ordered_keys
    intro row hrow
    simpa using hrow
  · intro key
    rw [ExtTreeSet.mem_toList, ← ExtTreeSet.contains_iff_mem, h.known, Option.isSome_iff_exists]
    simp only [List.mem_map, List.mem_filter, Prod.exists, decide_eq_true_eq,
      ExtTreeMap.mem_toList_iff_getElem?_eq_some]
    constructor
    · rintro ⟨row, hrow⟩
      exact ⟨⟨region, key⟩, row, ⟨hrow, rfl⟩, rfl⟩
    · rintro ⟨⟨_, _⟩, row, ⟨hrow, rfl⟩, rfl⟩
      exact ⟨row, hrow⟩

theorem known_size (h : Mirrors stands e f) (region : String) :
    (e.regionD region).known.size = f.count region := by
  rw [← ExtTreeSet.length_toList, h.known_toList, f.count_eq, List.countP_eq_length_filter,
    List.length_map]

theorem knownCount (h : Mirrors stands e f) : e.knownCount = f.rows.size := by
  have hcounts : (e.regions.toList.map fun row => row.2.known.size) =
      e.regions.keys.map fun region => f.rows.toList.countP fun row => row.1.region = region := by
    rw [← ExtTreeMap.map_fst_toList_eq_keys, List.map_map]
    apply List.map_congr_left
    rintro ⟨region, s⟩ hrow
    have hregion : e.region? region = some s :=
      ExtTreeMap.mem_toList_iff_getElem?_eq_some.mp hrow
    rw [← Engine.regionD_of_region? hregion, h.known_size, f.count_eq]
    rfl
  rw [Engine.knownCount_eq, Engine.total, Tree.sum_eq, hcounts, ← ExtTreeMap.length_toList]
  apply sum_countP
  · exact ExtTreeMap.nodup_keys
  · rintro ⟨⟨region, key⟩, row⟩ hrow
    have hget : f.row? region key = some row :=
      ExtTreeMap.mem_toList_iff_getElem?_eq_some.mp hrow
    rw [Tree.mem_keys_iff]
    cases hregion : e.regions[region]? with
    | some s => rfl
    | none =>
      rw [h.row_none hregion] at hget
      cases hget

section
variable [Store σ] (reliable : Reliable stands)
include reliable

theorem regionCounts (region : String) :
    Simulates stands (fun e => (((e.regionCounts region).1.total, (e.regionCounts region).1.stored),
      (e.regionCounts region).2)) (fun f => ((f.count region, f.count region), f)) := by
  intro e f h
  obtain ⟨t, hstands, holds⟩ := h.stored
  obtain ⟨s, hcount, hs⟩ := reliable.count hstands region
  simp only [Engine.regionCounts, hcount, holds.length_regionRows, h.known_size]
  exact ⟨rfl, h.withStore ⟨t, hs, holds⟩⟩

theorem regionNames : Simulates stands Engine.regionNames (fun f => (f.regionNames, f)) := by
  intro e f h
  obtain ⟨t, hstands, holds⟩ := h.stored
  obtain ⟨names, s, hregions, hnames, hs⟩ := reliable.regions hstands
  simp only [Engine.regionNames, hregions]
  refine ⟨?_, h.withStore ⟨t, hs, holds⟩⟩
  unfold Flat.regionNames
  congr 1
  apply ExtTreeSet.ext_mem
  intro name
  have hstored : name ∈ names ↔ ∃ id ∈ f.rows.keys, id.region = name := by
    simp only [hnames, t.mem_regionNames, ← Option.isSome_map (f := Entry.row), holds.rows,
      Tree.mem_keys_iff, and_comm]
  have hknown : (∃ row, (row ∈ e.regions.toList ∧ (!row.2.known.isEmpty) = true) ∧ row.1 = name) →
      ∃ id ∈ f.rows.keys, id.region = name := by
    rintro ⟨⟨region, state⟩, ⟨hrow, hnonempty⟩, rfl⟩
    have hregion : e.region? region = some state :=
      ExtTreeMap.mem_toList_iff_getElem?_eq_some.mp hrow
    have hlist : state.known.toList ≠ [] := by
      rw [← ExtTreeSet.isEmpty_toList] at hnonempty
      simpa using hnonempty
    obtain ⟨key, hkey⟩ := List.exists_mem_of_ne_nil _ hlist
    rw [ExtTreeSet.mem_toList] at hkey
    have hthere := h.known region key
    rw [Engine.regionD_of_region? hregion, ExtTreeSet.contains_iff_mem.mpr hkey] at hthere
    refine ⟨⟨region, key⟩, ?_, rfl⟩
    rw [ExtTreeMap.mem_keys, ExtTreeMap.mem_iff_isSome_getElem?]
    exact hthere.symm
  simp only [ExtTreeSet.mem_ofList, List.contains_iff_mem, List.mem_cons, List.mem_append,
    List.mem_map, List.mem_filter, h.defaultRegion, Except.toOption, Option.getD_some, hstored]
  constructor
  · rintro (hdefault | hmem | hmem)
    · exact .inl hdefault
    · exact .inr (hknown hmem)
    · exact .inr hmem
  · rintro (hdefault | hmem)
    · exact .inl hdefault
    · exact .inr (.inr hmem)

end
end Mirrors
end TierCache
