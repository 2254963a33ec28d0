import Mathlib.Data.List.Induction
import TierCache.Proofs.Json.Trees

/-!
Reading any JSON puts the members of its objects in key order. What is read of the text of a value is
the value as it is held apart from its text.
-/
namespace TierCache.Json

section
variable (numeral : Binary64 → Numeral)

theorem treeItems_eq_map (items : List Json) :
    treeItems numeral items = items.map (tree numeral) := by
  induction items with
  | nil => rfl
  | cons v rest ih => rw [treeItems, List.map_cons, ih]

theorem treeMembers_eq_map (members : List (String × Json)) :
    treeMembers numeral members = members.map fun m => (some m.1, tree numeral m.2) := by
  induction members with
  | nil => rfl
  | cons m rest ih => rw [treeMembers, List.map_cons, ih]

end

theorem sortedItems_eq_map (items : List Json) : sortedItems items = items.map sorted := by
  induction items with
  | nil => rfl
  | cons v rest ih => rw [sortedItems, List.map_cons, ih]

theorem sortedMembers_eq_map (members : List (String × Json)) :
    sortedMembers members = members.map fun m => (m.1, sorted m.2) := by
  induction members with
  | nil => rfl
  | cons m rest ih => rw [sortedMembers, List.map_cons, ih]

/-! ### Members in order -/

/-- Members in the order of their keys, no key twice. -/
abbrev InOrder (members : List (String × Json)) : Prop :=
  members.Pairwise fun m n => compare m.1 n.1 = .lt

theorem mem_insertMember {k : String} {v : Json} {members : List (String × Json)}
    {m : String × Json} (h : m ∈ insertMember k v members) : m = (k, v) ∨ m ∈ members := by
  induction members with
  | nil => exact .inl (List.mem_singleton.1 h)
  | cons first rest ih =>
    obtain ⟨l, w⟩ := first
    rw [insertMember] at h
    split at h
    · exact List.mem_cons.1 h
    · split at h
      · obtain rfl | h := List.mem_cons.1 h
        · exact .inl rfl
        · exact .inr (List.mem_cons_of_mem _ h)
      · obtain rfl | h := List.mem_cons.1 h
        · exact .inr List.mem_cons_self
        · exact (ih h).imp_right (List.mem_cons_of_mem _)

theorem inOrder_insertMember (k : String) (v : Json) {members : List (String × Json)}
    (h : InOrder members) : InOrder (insertMember k v members) := by
  induction members with
  | nil => exact List.pairwise_singleton _ _
  | cons first rest ih =>
    obtain ⟨l, w⟩ := first
    obtain ⟨hfirst, hrest⟩ := List.pairwise_cons.1 h
    rw [insertMember]
    split
    · rename_i hless
      have hkl : compare k l = .lt := compareOfLessAndEq_eq_lt.2 hless
      refine List.pairwise_cons.2 ⟨List.forall_mem_cons.2 ⟨hkl, fun m hm => ?_⟩, h⟩
      exact Std.TransCmp.lt_trans hkl (hfirst m hm)
    · rename_i hnotless
      split
      · rename_i heq
        subst heq
        exact List.pairwise_cons.2 ⟨hfirst, hrest⟩
      · rename_i hne
        refine List.pairwise_cons.2 ⟨fun m hm => ?_, ih hrest⟩
        obtain rfl | hm := mem_insertMember hm
        · cases hcompare : compare l k with
          | lt => rfl
          | eq => exact absurd (Std.LawfulEqCmp.eq_of_compare hcompare).symm hne
          | gt =>
            have hless : compare k l = .lt := Std.OrientedCmp.lt_of_gt hcompare
            exact absurd (compareOfLessAndEq_eq_lt.1 hless) hnotless
        · exact hfirst m hm

theorem byKey_concat (members : List (String × Json)) (m : String × Json) :
    byKey (members ++ [m]) = insertMember m.1 m.2 (byKey members) := by
  rw [byKey, List.foldl_append]
  rfl

-- The last member is the last to be put in, so the induction goes from the end of the list.
theorem inOrder_byKey (members : List (String × Json)) : InOrder (byKey members) := by
  induction members using List.reverseRecOn with
  | nil => exact .nil
  | append_singleton rest m ih =>
    rw [byKey_concat]
    exact inOrder_insertMember m.1 m.2 ih

theorem mem_byKey {members : List (String × Json)} {m : String × Json} (h : m ∈ byKey members) :
    m ∈ members := by
  induction members using List.reverseRecOn with
  | nil => exact h
  | append_singleton rest last ih =>
    rw [byKey_concat] at h
    obtain rfl | h := mem_insertMember h
    · exact List.mem_append_right _ (List.mem_singleton_self last)
    · exact List.mem_append_left _ (ih h)

/-- Members with different keys. -/
abbrev Distinct (members : List (String × Json)) : Prop :=
  members.Pairwise fun m n => m.1 ≠ n.1

theorem InOrder.distinct {members : List (String × Json)} (h : InOrder members) :
    Distinct members := by
  refine h.imp fun {m n} hless heq => ?_
  have hsame : compare m.1 n.1 = .eq := heq ▸ Std.ReflCmp.compare_self
  rw [hsame] at hless
  cases hless

theorem perm_insertMember {k : String} (v : Json) {members : List (String × Json)}
    (h : ∀ m ∈ members, k ≠ m.1) : (insertMember k v members).Perm ((k, v) :: members) := by
  induction members with
  | nil => exact .refl _
  | cons first rest ih =>
    obtain ⟨l, w⟩ := first
    obtain ⟨hne, hrest⟩ := List.forall_mem_cons.1 h
    rw [insertMember]
    split
    · exact .refl _
    · exact ((ih hrest).cons _).trans (.swap _ _ _)

theorem perm_byKey {members : List (String × Json)} (h : Distinct members) :
    (byKey members).Perm members := by
  induction members using List.reverseRecOn with
  | nil => exact .refl _
  | append_singleton rest m ih =>
    obtain ⟨hrest, -, hlast⟩ := List.pairwise_append.1 h
    have hnew : ∀ n ∈ byKey rest, m.1 ≠ n.1 := fun n hn =>
      (hlast n (mem_byKey hn) m (List.mem_singleton_self m)).symm
    have hinsert : (insertMember m.1 m.2 (byKey rest)).Perm (m :: rest) :=
      (perm_insertMember m.2 hnew).trans ((ih hrest).cons m)
    rw [byKey_concat]
    exact hinsert.trans (List.perm_append_singleton m rest).symm

/-- Members with different keys come into the one order, however they stood. -/
theorem byKey_of_perm {pairs members : List (String × Json)} (h : pairs.Perm members)
    (hordered : InOrder members) : byKey pairs = members := by
  have hdistinct := (h.pairwise_iff fun hne => hne.symm).2 hordered.distinct
  have hperm := (perm_byKey hdistinct).trans h
  refine hperm.eq_of_pairwise ?_ (inOrder_byKey pairs) hordered
  intro m n _ _ hmn hnm
  have hswap : compare m.1 n.1 = (compare n.1 m.1).swap := Std.OrientedCmp.eq_swap
  rw [hswap, hnm] at hmn
  cases hmn

/-! ### Reading -/

namespace Raw

theorem items?_map {α : Type} {room : Nat} {f : α → Raw} {g : α → Json} {l : List α}
    (h : ∀ a ∈ l, value? room (f a) = some (g a)) : items? room (l.map f) = some (l.map g) := by
  induction l with
  | nil => rw [List.map_nil, items?, List.map_nil]
  | cons a rest ih =>
    rw [List.forall_mem_cons] at h
    rw [List.map_cons, List.map_cons, items?]
    simp only [h.1, ih h.2]

theorem pairs?_cons {room : Nat} (k : String) {v : Raw} {rest : List (Option String × Raw)}
    {j : Json} {ps : List (String × Json)} (hv : value? room v = some j)
    (hrest : pairs? room rest = some ps) :
    pairs? room ((some k, v) :: rest) = some ((k, j) :: ps) := by
  rw [pairs?]
  · exact hv
  · exact hrest

theorem pairs?_map {α : Type} {room : Nat} {k : α → String} {f : α → Raw} {g : α → Json}
    {l : List α} (h : ∀ a ∈ l, value? room (f a) = some (g a)) :
    pairs? room (l.map fun a => (some (k a), f a)) = some (l.map fun a => (k a, g a)) := by
  induction l with
  | nil => rw [List.map_nil, pairs?, List.map_nil]
  | cons a rest ih =>
    rw [List.forall_mem_cons] at h
    exact pairs?_cons (k a) h.1 (ih h.2)

theorem value?_arr {room : Nat} {items : List Raw} {js : List Json}
    (hitems : items? room items = some js) : value? (room + 1) (.arr items) = some (.arr js) := by
  rw [value?, hitems, Option.map_some]

theorem value?_obj {room : Nat} {members : List (Option String × Raw)} {ps : List (String × Json)}
    (hpairs : pairs? room members = some ps) :
    value? (room + 1) (.obj members) = some (.obj (byKey ps)) := by
  rw [value?, hpairs, Option.map_some]

end Raw

/-- A value that nests at most so deep and whose integers are within 64 bits. -/
inductive Fits : Nat → Json → Prop
  | null (room : Nat) : Fits room .null
  | bool (room : Nat) (b : Bool) : Fits room (.bool b)
  | int (room : Nat) {n : Int} (low : -(Text.signedLimit : Int) ≤ n) (high : n ≤ Text.maxUnsigned) :
      Fits room (.int n)
  | float (room : Nat) (x : Binary64) : Fits room (.float x)
  | str (room : Nat) (s : String) : Fits room (.str s)
  | arr {room : Nat} {items : List Json} (each : ∀ j ∈ items, Fits room j) :
      Fits (room + 1) (.arr items)
  | obj {room : Nat} {members : List (String × Json)} (each : ∀ m ∈ members, Fits room m.2) :
      Fits (room + 1) (.obj members)

theorem ofNumeral?_neg {n : Nat} (hpos : 0 < n) (h : n ≤ Text.signedLimit) :
    ofNumeral? ⟨decide (-(n : Int) < 0), (-(n : Int)).natAbs, 0, true⟩ = some (.int (-n)) := by
  simp [ofNumeral?, hpos, h]

theorem ofNumeral?_int {n : Int} (low : -(Text.signedLimit : Int) ≤ n) (high : n ≤ Text.maxUnsigned) :
    ofNumeral? ⟨decide (n < 0), n.natAbs, 0, true⟩ = some (.int n) := by
  obtain hneg | hnonneg := lt_or_ge n 0
  · obtain ⟨m, rfl⟩ := Int.exists_eq_neg_ofNat hneg.le
    exact ofNumeral?_neg (by omega) (by omega)
  · obtain ⟨m, rfl⟩ := Int.eq_ofNat_of_zero_le hnonneg
    exact ofNumeral?_nat (by omega)

theorem value?_tree {numeral : Binary64 → Numeral} (hfaithful : Faithful numeral) {room : Nat}
    {j : Json} (h : j.Fits room) : (tree numeral j).value? room = some j.sorted := by
  induction h with
  | null | bool =>
    rw [tree, Raw.value?]
    rfl
  | int room low high =>
    rw [tree, Raw.value?, ofNumeral?_int low high]
    rfl
  | float room x =>
    rw [tree, sorted]
    split
    · rename_i hfinite
      rw [Raw.value?, hfaithful x hfinite]
    · rw [Raw.value?]
  | str room s =>
    rw [tree, Raw.value?]
    rfl
  | arr each ih =>
    rw [tree, treeItems_eq_map, sorted, sortedItems_eq_map]
    exact Raw.value?_arr (Raw.items?_map ih)
  | obj each ih =>
    rw [tree, treeMembers_eq_map, sorted, sortedMembers_eq_map]
    exact Raw.value?_obj (Raw.pairs?_map ih)

end TierCache.Json
