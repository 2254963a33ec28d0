import TierCache.Proofs.Engine.Operation
import TierCache.Proofs.Value.Record

/-! No change to contents leads to a value that JSON cannot hold: new scores are finite. -/
namespace TierCache

namespace Edit

theorem addScored_allFinite {members : List (Binary64 × String)} {z : SortedSet}
    (h : z.AllFinite) (hmembers : members.all (·.1.isFinite) = true) :
    (addScored members z).after.AllFinite := by
  have run (members : List (Binary64 × String)) (n : Nat) (z : SortedSet) (h : z.AllFinite)
      (hmembers : members.all (·.1.isFinite) = true) :
      (members.foldl (fun acc row =>
        (if (acc.2.insert row.2 row.1).1 then acc.1 + 1 else acc.1, (acc.2.insert row.2 row.1).2))
        (n, z)).2.AllFinite := by
    induction members generalizing n z with
    | nil => exact h
    | cons first rest ih =>
      rw [List.all_cons, Bool.and_eq_true] at hmembers
      exact ih _ _ (h.insert first.2 hmembers.1) hmembers.2
  exact run members 0 z h hmembers

theorem removeScored_allFinite (members : List String) {z : SortedSet} (h : z.AllFinite) :
    (removeScored members z).after.AllFinite := by
  have run (members : List String) (n : Nat) (z : SortedSet) (h : z.AllFinite) :
      (members.foldl (fun acc m =>
        (if (acc.2.remove m).1 then acc.1 + 1 else acc.1, (acc.2.remove m).2))
        (n, z)).2.AllFinite := by
    induction members generalizing n z with
    | nil => exact h
    | cons first rest ih => exact ih _ _ (h.remove first)
  exact run members 0 z h

end Edit

namespace Value

theorem encodable_empty (t : DataType) : (empty t).Encodable := by
  cases t with
  | sortedSet => exact SortedSet.AllFinite.empty
  | _ => trivial

end Value

namespace Typed.Plan

/-- What the plan makes of a value that JSON can hold is one again. -/
def Encodes {α : Type} : Plan α → Prop
  | upsert c change => ∀ v b edit, v.Encodable → c.of? v = some b → change b = .ok edit →
      (c.wrap edit.after).Encodable
  | update c _ change => ∀ v b, v.Encodable → c.of? v = some b →
      (c.wrap (change b).after).Encodable
  | _ => True

end Typed.Plan

theorem Typed.plan_encodes {α : Type} (op : Typed α) : op.plan.Encodes := by
  have hset {v : Value} {z : SortedSet} (h : v.Encodable)
      (hof : Engine.Contents.sortedSet.of? v = some z) : z.AllFinite := by
    cases v with
    | sortedSet w =>
      cases hof
      exact h
    | _ => cases hof
  cases op with
  | sortedAdd members =>
    rw [plan]
    split
    · rename_i hfinite
      intro v z edit h hof hedit
      cases hedit
      exact Edit.addScored_allFinite (hset h hof) hfinite
    · trivial
  | sortedRemove members => exact fun v z h hof => Edit.removeScored_allFinite members (hset h hof)
  | incrBy _ | append _ | hset _ | pushHead _ | pushTail _ | setAdd _ =>
    exact fun _ _ _ _ _ _ => trivial
  | hdel _ | popHead | popTail | setRemove _ => exact fun _ _ _ _ => trivial
  | _ => trivial

end TierCache
