import Mathlib.Algebra.Order.Ring.Nat
import Mathlib.Algebra.BigOperators.Group.List.Basic
import Std.Data.ExtTreeMap
import Std.Data.ExtTreeSet

/-! Facts on finite maps: their rows as lists without repetition, and sums of a figure over them. -/
namespace TierCache.Tree
open Std

variable {α β : Type} [Ord α] [TransOrd α] [LawfulEqOrd α]

theorem get_insert [DecidableEq α] (m : ExtTreeMap α β) (k : α) (v : β) (l : α) :
    (m.insert k v)[l]? = if k = l then some v else m[l]? := by
  simp only [ExtTreeMap.getElem?_insert, Std.compare_eq_iff_eq]

theorem get_erase [DecidableEq α] (m : ExtTreeMap α β) (k l : α) :
    (m.erase k)[l]? = if k = l then none else m[l]? := by
  simp only [ExtTreeMap.getElem?_erase, Std.compare_eq_iff_eq]

theorem mem_keys_iff {m : ExtTreeMap α β} {k : α} : k ∈ m.keys ↔ (m[k]?).isSome := by
  rw [ExtTreeMap.mem_keys, ExtTreeMap.mem_iff_isSome_getElem?]

theorem nodup_toList (m : ExtTreeMap α β) : m.toList.Nodup := by
  refine m.distinct_keys_toList.imp ?_
  intro a b hab heq
  exact hab (heq ▸ ReflCmp.compare_self)

/-- The rows of a map make it up again, in any order. -/
theorem ofList_of_perm [DecidableEq α] {m : ExtTreeMap α β} {rows : List (α × β)}
    (h : rows.Perm m.toList) : ExtTreeMap.ofList rows = m := by
  have hdistinct : rows.Pairwise fun a b => ¬compare a.1 b.1 = .eq :=
    (h.pairwise_iff fun hne heq => hne (OrientedCmp.eq_symm heq)).2 m.distinct_keys_toList
  apply ExtTreeMap.ext_getElem?
  intro k
  cases hk : m[k]? with
  | none =>
    apply ExtTreeMap.getElem?_ofList_of_contains_eq_false
    rw [(h.map _).contains_eq, ExtTreeMap.map_fst_toList_eq_keys, ExtTreeMap.contains_keys,
      ExtTreeMap.contains_eq_isSome_getElem?, hk]
    rfl
  | some v =>
    have hrow : (k, v) ∈ rows := h.mem_iff.2 (ExtTreeMap.mem_toList_iff_getElem?_eq_some.2 hk)
    exact ExtTreeMap.getElem?_ofList_of_mem ReflCmp.compare_self hdistinct hrow

theorem ofList_of_members [DecidableEq α] {s : ExtTreeSet α} {members : List α}
    (h : members.Perm s.toList) : ExtTreeSet.ofList members = s := by
  apply ExtTreeSet.ext_mem
  intro k
  rw [ExtTreeSet.mem_ofList, List.contains_iff_mem, h.mem_iff, ExtTreeSet.mem_toList]

/-- Two lists in order with the same members are the same. -/
theorem eq_of_ordered {l₁ l₂ : List α} (h₁ : l₁.Pairwise fun a b => compare a b = .lt)
    (h₂ : l₂.Pairwise fun a b => compare a b = .lt) (hmem : ∀ a, a ∈ l₁ ↔ a ∈ l₂) : l₁ = l₂ := by
  have hnodup {l : List α} (h : l.Pairwise fun a b => compare a b = .lt) : l.Nodup := by
    refine h.imp ?_
    intro a b hlt heq
    simp [heq] at hlt
  have hperm := (List.perm_ext_iff_of_nodup (hnodup h₁) (hnodup h₂)).mpr hmem
  refine hperm.eq_of_pairwise ?_ h₁ h₂
  intro a b _ _ hab hba
  have hswap : compare a b = (compare b a).swap := OrientedCmp.eq_swap
  rw [hswap, hba] at hab
  cases hab

omit [LawfulEqOrd α] in
theorem values_eq (m : ExtTreeMap α β) : m.values = m.toList.map (·.2) := by
  have hfold : m.values = m.foldr (fun _ b l => b :: l) [] := by
    obtain ⟨⟨t⟩⟩ := m
    rfl
  rw [hfold, ExtTreeMap.foldr_eq_foldr_toList]
  induction m.toList with
  | nil => rfl
  | cons row rows ih => rw [List.foldr_cons, ih, List.map_cons]

/-- Values that tell their own keys do not repeat. -/
theorem nodup_values (m : ExtTreeMap α β) (name : β → α)
    (h : ∀ (k : α) (v : β), m[k]? = some v → name v = k) : (m.toList.map (·.2)).Nodup := by
  have hrow : ∀ row ∈ m.toList, name row.2 = row.1 := fun row hrow =>
    h row.1 row.2 (ExtTreeMap.mem_toList_iff_getElem?_eq_some.1 hrow)
  refine List.pairwise_map.2 ((nodup_toList m).imp_of_mem ?_)
  intro row other hmem hother hne heq
  exact hne (Prod.ext (by rw [← hrow row hmem, heq, hrow other hother]) heq)

theorem nodup_members (s : ExtTreeSet α) : s.toList.Nodup := by
  refine s.distinct_toList.imp ?_
  intro a b hab heq
  exact hab (heq ▸ ReflCmp.compare_self)

/-- A map is the row of one key and the rows of the others. -/
theorem toList_perm_erase (m : ExtTreeMap α β) {k : α} {v : β} (h : m[k]? = some v) :
    m.toList.Perm ((k, v) :: (m.erase k).toList) := by
  have hout : (k, v) ∉ (m.erase k).toList := by
    simp
  refine (List.perm_ext_iff_of_nodup (nodup_toList m)
    (List.nodup_cons.mpr ⟨hout, nodup_toList _⟩)).mpr ?_
  rintro ⟨l, w⟩
  simp only [ExtTreeMap.mem_toList_iff_getElem?_eq_some, List.mem_cons, Prod.mk.injEq,
    ExtTreeMap.getElem?_erase, Std.compare_eq_iff_eq]
  by_cases hl : k = l
  · subst hl
    simp [h, eq_comm]
  · simp [hl, Ne.symm hl]

theorem erase_insert (m : ExtTreeMap α β) (k : α) (v : β) : (m.insert k v).erase k = m.erase k := by
  apply ExtTreeMap.ext_getElem?
  intro l
  simp only [ExtTreeMap.getElem?_erase, ExtTreeMap.getElem?_insert, Std.compare_eq_iff_eq]
  split <;> rfl

theorem insert_insert (m : ExtTreeMap α β) (k : α) (v w : β) :
    (m.insert k v).insert k w = m.insert k w := by
  apply ExtTreeMap.ext_getElem?
  intro l
  simp only [ExtTreeMap.getElem?_insert, Std.compare_eq_iff_eq]
  split <;> rfl

theorem insert_of_some (m : ExtTreeMap α β) {k : α} {v : β} (h : m[k]? = some v) :
    m.insert k v = m := by
  apply ExtTreeMap.ext_getElem?
  intro l
  by_cases hkl : k = l
  · subst hkl
    simp [h]
  · simp [ExtTreeMap.getElem?_insert, hkl]

theorem erase_of_none (m : ExtTreeMap α β) {k : α} (h : m[k]? = none) : m.erase k = m := by
  apply ExtTreeMap.ext_getElem?
  intro l
  by_cases hkl : k = l
  · subst hkl
    simp [h]
  · simp [ExtTreeMap.getElem?_erase, hkl]

/-- The sum of a figure over the rows of a map. -/
def sum (f : β → Nat) (m : ExtTreeMap α β) : Nat := m.foldl (fun n _ b => n + f b) 0

omit [LawfulEqOrd α] in
theorem sum_eq (f : β → Nat) (m : ExtTreeMap α β) :
    sum f m = (m.toList.map fun row => f row.2).sum := by
  have run (l : List (α × β)) (n : Nat) :
      l.foldl (fun n row => n + f row.2) n = n + (l.map fun row => f row.2).sum := by
    induction l generalizing n with
    | nil => simp
    | cons row rest ih => simp [ih, Nat.add_assoc]
  rw [sum, ExtTreeMap.foldl_eq_foldl_toList, run, Nat.zero_add]

omit [LawfulEqOrd α] in
@[simp] theorem sum_empty (f : β → Nat) : sum f (∅ : ExtTreeMap α β) = 0 := by
  rw [sum_eq, ExtTreeMap.toList_eq_nil_iff.mpr rfl]
  rfl

theorem sum_erase (f : β → Nat) (m : ExtTreeMap α β) {k : α} {v : β} (h : m[k]? = some v) :
    sum f m = f v + sum f (m.erase k) := by
  have hold := (toList_perm_erase m h).map fun row => f row.2
  rw [sum_eq, sum_eq, hold.sum_eq, List.map_cons, List.sum_cons]

/-- A row that comes in brings its figure; the row it replaces takes its own away. -/
theorem sum_insert (f : β → Nat) (m : ExtTreeMap α β) (k : α) (v : β) :
    sum f (m.insert k v) + m[k]?.elim 0 f = sum f m + f v := by
  have hnew := sum_erase f (m.insert k v) (k := k) (v := v) (by simp)
  rw [erase_insert] at hnew
  cases hk : m[k]? with
  | none =>
    rw [erase_of_none m hk] at hnew
    simp only [Option.elim_none]
    omega
  | some w =>
    have hold := sum_erase f m hk
    simp only [Option.elim_some]
    omega

/-- The figure of one row is part of the sum. -/
theorem le_sum (f : β → Nat) (m : ExtTreeMap α β) {k : α} {v : β} (h : m[k]? = some v) :
    f v ≤ sum f m := by
  rw [sum_erase f m h]
  exact Nat.le_add_right _ _

end TierCache.Tree
