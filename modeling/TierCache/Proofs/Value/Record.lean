import TierCache.Proofs.Json.Records
import TierCache.Proofs.Json.Sorted
import TierCache.Proofs.Tree
import TierCache.Proofs.Value.SortedSet
import TierCache.Value.Record

/-!
A value is read back from its JSON. That takes finite scores, since JSON has no other numbers.
-/
namespace TierCache
open Std Json

namespace Json.Raw

/-- What reads every element back reads the list back. -/
theorem each_map {α β : Type} {read : α → Except Fault β} {f : β → α} {l : List β}
    (h : ∀ b ∈ l, read (f b) = .ok b) : each read (l.map f) = .ok l := by
  induction l with
  | nil => rfl
  | cons b rest ih =>
    rw [List.forall_mem_cons] at h
    rw [List.map_cons, each, h.1, ih h.2]
    rfl

end Json.Raw

/-! ### Contents -/

theorem ScoredMember.sorted_toJson {m : ScoredMember} (h : m.score.isFinite = true) :
    m.toJson.sorted = m.toJson := by
  have hless : Ord.compare "member" "score" = .lt := by decide
  have hordered : InOrder [("member", .str m.member), ("score", .float m.score)] := by
    simpa [InOrder] using hless
  rw [ScoredMember.toJson, sorted, sortedMembers_eq_map]
  simp only [List.map_cons, List.map_nil, sorted, h, if_true]
  exact congrArg Json.obj (byKey_of_perm (.refl _) hordered)

section
variable {numeral : Binary64 → Numeral} (hfaithful : Faithful numeral)
include hfaithful

theorem ScoredMember.ofRaw_tree {m : ScoredMember} (h : m.score.isFinite = true) :
    ScoredMember.ofRaw (tree numeral m.toJson) = .ok m := by
  have hnodup : ["member", "score"].Nodup := by decide
  have hrecord := @Raw.record_named [("member", .str (some m.member)),
    ("score", .num (numeral m.score))] hnodup 2
  have htree : tree numeral m.toJson = .obj (named [("member", .str (some m.member)),
      ("score", .num (numeral m.score))]) := by
    simp only [ScoredMember.toJson, tree, treeMembers, h, if_true]
    rfl
  rw [htree]
  refine (congrArg (· >>= _) hrecord).trans ?_
  simp only [bind, Except.bind, List.map, Raw.needed, Raw.float, hfaithful m.score h]
  rfl

namespace Value

/-- JSON can hold the value: every score is a finite number. -/
def Encodable : Value → Prop
  | sortedSet z => z.AllFinite
  | _ => True

/-- A value that JSON cannot hold: its score is written as null, which is read as no number. -/
def boundless : Value := .sortedSet (SortedSet.empty.insert "m" (.infinity false)).2

/-- The contents are read back, however they were written. -/
theorem ofData_tree {v : Value} (h : v.Encodable) {d : Json} (hd : v.Data d) :
    ofData v.dataType (tree numeral d) = .ok v := by
  cases hd with
  | string text => rfl
  | hash order =>
    simp only [tree, treeMembers_eq_map, List.map_map, dataType, ofData, Raw.pairs]
    rw [Raw.each_map]
    · exact congrArg (fun h => Except.ok (hash h)) (Tree.ofList_of_perm order)
    · exact fun _ _ => rfl
  | list items =>
    simp only [tree, treeItems_eq_map, List.map_map, dataType, ofData, Raw.array]
    rw [Raw.each_map]
    · rfl
    · exact fun _ _ => rfl
  | set order =>
    simp only [tree, treeItems_eq_map, List.map_map, dataType, ofData, Raw.array]
    rw [Raw.each_map]
    · exact congrArg (fun s => Except.ok (set s)) (Tree.ofList_of_members order)
    · exact fun _ _ => rfl
  | sortedSet z =>
    simp only [tree, treeItems_eq_map, List.map_map, dataType, ofData, Raw.array]
    rw [Raw.each_map]
    · exact congrArg (fun z => Except.ok (sortedSet z)) z.ofList_toList
    · exact fun m hm => ScoredMember.ofRaw_tree hfaithful (h m hm)

end Value
end

namespace Value

theorem name_tag (t : DataType) : Raw.name DataType.tags (.str (some t.tag)) = .ok t := by
  cases t <;> rfl

theorem Data.fits {v : Value} {d : Json} (h : v.Data d) (room : Nat) : d.Fits (room + 2) := by
  cases h with
  | string text => exact .str _ text
  | hash order =>
    apply Fits.obj
    rw [List.forall_mem_map]
    exact fun _ _ => .str _ _
  | list items | set order =>
    apply Fits.arr
    rw [List.forall_mem_map]
    exact fun _ _ => .str _ _
  | sortedSet z =>
    apply Fits.arr
    rw [List.forall_mem_map]
    exact fun m _ => .obj (List.forall_mem_cons.2 ⟨.str _ _, List.forall_mem_singleton.2 (.float _ _)⟩)

theorem Written.fits {v : Value} {j : Json} (h : v.Written j) (room : Nat) : j.Fits (room + 3) := by
  obtain ⟨contents⟩ := h
  exact .obj (List.forall_mem_cons.2 ⟨.str _ _, List.forall_mem_singleton.2 (contents.fits room)⟩)

/-- A value is read back from any text of it. -/
theorem ofRaw_written {v : Value} (h : v.Encodable) {j : Json} (hj : v.Written j) (room : Nat) :
    Value.ofRaw room (Json.written j) = .ok v := by
  obtain ⟨contents⟩ := hj
  rename_i d
  have htype : ofMembers (room - 1) .nothing [(some "type", .str (some v.dataType.tag)),
      (some "data", Json.written d)] =
        (Raw.name DataType.tags (.str (some v.dataType.tag)) >>= fun t =>
          ofData t (Json.written d) >>= fun v => ofMembers (room - 1) (.whole v) []) := rfl
  refine htype.trans ?_
  rw [name_tag]
  exact (congrArg (· >>= _) (ofData_tree faithful_floatNumeral h contents)).trans rfl

/-! ### Values apart from their text -/

/-- Contents that are put in order are written once more. -/
theorem Data.sorted {v : Value} {d : Json} (h : v.Encodable) (hd : v.Data d) : v.Data d.sorted := by
  cases hd with
  | string text => exact .string text
  | @hash fields members order =>
    rw [Json.sorted, sortedMembers_eq_map, List.map_map, byKey_of_perm (order.map _)]
    · exact .hash (.refl _)
    · exact List.pairwise_map.2 fields.ordered_keys_toList
  | list items =>
    rw [Json.sorted, sortedItems_eq_map, List.map_map]
    exact .list items
  | set order =>
    rw [Json.sorted, sortedItems_eq_map, List.map_map]
    exact .set order
  | sortedSet z =>
    have hsame : z.toList.map (Json.sorted ∘ ScoredMember.toJson) =
        z.toList.map ScoredMember.toJson :=
      List.map_congr_left fun m hm => ScoredMember.sorted_toJson (h m hm)
    rw [Json.sorted, sortedItems_eq_map, List.map_map, hsame]
    exact .sortedSet z

/-- A value is read back when it was held apart from its text, its data before its type. -/
theorem ofRaw_sorted {v : Value} (h : v.Encodable) {j : Json} (hj : v.Written j) (room : Nat) :
    Value.ofRaw (room + 3) j.sorted.raw = .ok v := by
  obtain ⟨contents⟩ := hj
  rename_i d
  have hsorted : (Json.obj [("type", .str v.dataType.tag), ("data", d)]).sorted =
      .obj [("data", d.sorted), ("type", .str v.dataType.tag)] := rfl
  have hagain := contents.sorted h
  have hdata := value?_tree faithful_plainNumeral (hagain.fits room)
  have hback := ofData_tree faithful_plainNumeral h hagain
  have hfirst : ofMembers (room + 2) .nothing [(some "data", tree plainNumeral d.sorted),
      (some "type", .str (some v.dataType.tag))] =
        if ((tree plainNumeral d.sorted).value? (room + 2)).isSome then
          ofMembers (room + 2) (.pending (tree plainNumeral d.sorted))
            [(some "type", .str (some v.dataType.tag))]
        else .error .malformed := rfl
  have hlast (d : Raw) :
      ofMembers (room + 2) (.pending d) [(some "type", .str (some v.dataType.tag))] =
        (Raw.name DataType.tags (.str (some v.dataType.tag)) >>= fun t => ofData t d >>= fun v =>
          ofMembers (room + 2) (.whole v) []) := rfl
  rw [hsorted, raw_eq_tree]
  refine hfirst.trans ?_
  rw [hdata, Option.isSome_some, if_pos rfl, hlast, name_tag]
  exact (congrArg (· >>= _) hback).trans rfl

end Value
end TierCache
