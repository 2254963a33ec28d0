import Std.Data.ExtTreeMap

/-!
Names of rows: a region and a key in it, ordered by region first.
-/
namespace TierCache
open Std

structure RowId where
  region : String
  key : String
  deriving DecidableEq, Repr

namespace RowId

instance : Ord RowId :=
  ⟨compareLex (compareOn fun r => r.region) (compareOn fun r => r.key)⟩

instance : TransOrd RowId :=
  inferInstanceAs (TransCmp (compareLex (compareOn RowId.region) (compareOn RowId.key)))

instance : LawfulEqOrd RowId where
  eq_of_compare {a b} h := by
    change compareLex (compareOn RowId.region) (compareOn RowId.key) a b = .eq at h
    simp only [compareLex, compareOn, Ordering.then_eq_eq, Std.compare_eq_iff_eq] at h
    cases a
    cases b
    simp_all

end RowId
end TierCache
