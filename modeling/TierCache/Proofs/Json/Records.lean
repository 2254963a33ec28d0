import TierCache.Json.Read
import TierCache.Proofs.Json.Trees

/-!
A record that was written with each of its fields once is read with what was written for each.
-/
namespace TierCache.Json

theorem unsigned_written {n : Nat} (h : n ≤ Text.maxUnsigned) :
    Raw.unsigned (written (.nat n)) = .ok n := by
  have htree : written (.nat n) = .num ⟨decide ((n : Int) < 0), (n : Int).natAbs, 0, true⟩ := rfl
  rw [htree, Raw.unsigned, ofNumeral?_nat h]

theorem optional_unsigned {t : Option Nat} (h : ∀ n ∈ t, n ≤ Text.maxUnsigned) :
    Raw.optional Raw.unsigned (written (.opt .nat t)) = .ok t := by
  cases t with
  | none => rfl
  | some n => exact (congrArg (Except.map some) (unsigned_written (h n rfl))).trans rfl

/-- Members with their names, as an object holds them. -/
def named (members : List (String × Raw)) : List (Option String × Raw) :=
  members.map fun m => (some m.1, m.2)

theorem lookup_reverse {members : List (String × Raw)} (hnodup : (members.map (·.1)).Nodup)
    {m : String × Raw} (hm : m ∈ members) : members.reverse.lookup m.1 = some m.2 := by
  induction members with
  | nil => exact absurd hm List.not_mem_nil
  | cons first rest ih =>
    rw [List.map_cons, List.nodup_cons] at hnodup
    rw [List.reverse_cons, List.lookup_append]
    obtain rfl | hm := List.mem_cons.1 hm
    · have hrest : rest.reverse.lookup m.1 = none := by
        rw [List.lookup_eq_none_iff]
        intro other hother
        have hne : other.1 ≠ m.1 := fun heq =>
          hnodup.1 (heq ▸ List.mem_map_of_mem (List.mem_reverse.1 hother))
        simpa using hne.symm
      rw [hrest]
      exact List.lookup_cons_self
    · rw [ih hnodup.2 hm]
      rfl

namespace Raw

theorem collect_named {fields : List String} {members found : List (String × Raw)}
    (hknown : ∀ m ∈ members, m.1 ∈ fields) (hnodup : (members.map (·.1)).Nodup)
    (hnew : ∀ m ∈ members, found.lookup m.1 = none) :
    collect fields (named members) found = .ok (members.reverse ++ found) := by
  induction members generalizing found with
  | nil => rfl
  | cons m rest ih =>
    obtain ⟨k, v⟩ := m
    have hk := hknown (k, v) List.mem_cons_self
    have hfound := hnew (k, v) List.mem_cons_self
    rw [List.map_cons, List.nodup_cons] at hnodup
    have hrest : collect fields (named rest) ((k, v) :: found) =
        .ok (rest.reverse ++ (k, v) :: found) := by
      apply ih (fun m hm => hknown m (List.mem_cons_of_mem _ hm)) hnodup.2
      intro m hm
      have hne : m.1 ≠ k := by
        rintro rfl
        exact hnodup.1 (List.mem_map_of_mem (f := (·.1)) hm)
      rw [List.lookup_cons, beq_false_of_ne hne]
      exact hnew m (List.mem_cons_of_mem _ hm)
    simp only at hk hfound
    simp only [named, List.map_cons, collect, hk, if_true, hfound, Option.isSome_none,
      Bool.false_eq_true, if_false, List.reverse_cons, List.append_assoc, List.singleton_append]
    exact hrest

/-- A record in which every field is written once, in any order of the fields. -/
theorem record_named {members : List (String × Raw)} (hnodup : (members.map (·.1)).Nodup)
    (required : Nat) :
    record (members.map (·.1)) required (.obj (named members)) =
      .ok (members.map fun m => some m.2) := by
  have hcollect : collect (members.map (·.1)) (named members) [] = _ :=
    collect_named (fun m hm => List.mem_map_of_mem hm) hnodup (fun _ _ => rfl)
  rw [List.append_nil] at hcollect
  simp only [record, hcollect, Except.map, List.map_map]
  congr 1
  exact List.map_congr_left fun m hm => lookup_reverse hnodup hm

end Raw
end TierCache.Json
