import Std.Data.ExtTreeMap
import Std.Data.ExtTreeSet
import TierCache.Number.Binary64

/-!
Sets of members with scores, in the order of score and then member. A second index from member to
score finds the element that a new score replaces.
-/
namespace TierCache
open Std

@[ext] structure ScoredMember where
  member : String
  score : Binary64
  deriving DecidableEq

namespace ScoredMember

/-- By score in the total order of floats, then by member. -/
def compare : ScoredMember → ScoredMember → Ordering :=
  compareLex (compareOn fun m => m.score.rank) (compareOn fun m => m.member)

instance : TransCmp compare := inferInstanceAs (TransCmp (compareLex _ _))

instance : LawfulEqCmp compare where
  eq_of_compare {a b} h := by
    simp only [compare, compareLex, compareOn, Ordering.then_eq_eq, Std.compare_eq_iff_eq] at h
    obtain ⟨am, as⟩ := a
    obtain ⟨bm, bs⟩ := b
    exact (ScoredMember.mk.injEq ..).mpr ⟨h.2, Binary64.rank_inj h.1⟩

end ScoredMember

/-- Both indexes hold the same members with the same scores. -/
structure SortedSet where
  ordered : ExtTreeSet ScoredMember ScoredMember.compare
  scores : ExtTreeMap String Binary64
  indexed (m : ScoredMember) : m ∈ ordered ↔ scores[m.member]? = some m.score
  deriving DecidableEq

namespace SortedSet

def empty : SortedSet := ⟨∅, ∅, by simp⟩

instance : Inhabited SortedSet := ⟨empty⟩

theorem mem_insert (ordered : ExtTreeSet ScoredMember ScoredMember.compare) (m n : ScoredMember) :
    n ∈ ordered.insert m ↔ m = n ∨ n ∈ ordered := by
  rw [ExtTreeSet.mem_insert, LawfulEqCmp.compare_eq_iff_eq]

theorem mem_erase (ordered : ExtTreeSet ScoredMember ScoredMember.compare) (m n : ScoredMember) :
    n ∈ ordered.erase m ↔ m ≠ n ∧ n ∈ ordered := by
  rw [ExtTreeSet.mem_erase, ne_eq, LawfulEqCmp.compare_eq_iff_eq]

/-- A member that is taken out of the order with its score is out of both indexes. -/
theorem indexed_erase (z : SortedSet) {member : String} {score : Binary64}
    (h : z.scores[member]? = some score) (m : ScoredMember) :
    m ∈ z.ordered.erase ⟨member, score⟩ ↔ (z.scores.erase member)[m.member]? = some m.score := by
  rw [mem_erase, z.indexed, ExtTreeMap.getElem?_erase]
  by_cases hm : member = m.member
  · subst hm
    rw [h]
    cases m
    simp
  · simp [hm, ScoredMember.ext_iff]

theorem indexed_absent (z : SortedSet) {member : String} (h : z.scores[member]? = none)
    (m : ScoredMember) :
    m ∈ z.ordered ↔ (z.scores.erase member)[m.member]? = some m.score := by
  rw [z.indexed, ExtTreeMap.getElem?_erase]
  by_cases hm : member = m.member
  · subst hm
    simp [h]
  · simp [hm]

/-- A member comes with its score into both indexes once it is in neither. -/
theorem indexed_insert {ordered : ExtTreeSet ScoredMember ScoredMember.compare}
    {scores : ExtTreeMap String Binary64} {member : String}
    (h : ∀ m : ScoredMember, m ∈ ordered ↔ (scores.erase member)[m.member]? = some m.score)
    (score : Binary64) (m : ScoredMember) :
    m ∈ ordered.insert ⟨member, score⟩ ↔ (scores.insert member score)[m.member]? = some m.score := by
  rw [mem_insert, h, ExtTreeMap.getElem?_erase, ExtTreeMap.getElem?_insert]
  by_cases hm : member = m.member
  · subst hm
    cases m
    simp
  · simp [hm, ScoredMember.ext_iff]

/-- Adds a member or gives it a new score. True when the member is new. -/
def insert (z : SortedSet) (member : String) (score : Binary64) : Bool × SortedSet :=
  match h : z.scores[member]? with
  | some old =>
    (false, ⟨(z.ordered.erase ⟨member, old⟩).insert ⟨member, score⟩, z.scores.insert member score,
      indexed_insert (z.indexed_erase h) score⟩)
  | none => (true, ⟨z.ordered.insert ⟨member, score⟩, z.scores.insert member score,
      indexed_insert (z.indexed_absent h) score⟩)

/-- Removes a member. True when it was there. -/
def remove (z : SortedSet) (member : String) : Bool × SortedSet :=
  match h : z.scores[member]? with
  | some score =>
    (true, ⟨z.ordered.erase ⟨member, score⟩, z.scores.erase member, z.indexed_erase h⟩)
  | none => (false, z)

def score? (z : SortedSet) (member : String) : Option Binary64 := z.scores[member]?

def size (z : SortedSet) : Nat := z.ordered.size

def isEmpty (z : SortedSet) : Bool := z.ordered.isEmpty

/-- The members in order. -/
def toList (z : SortedSet) : List ScoredMember := z.ordered.toList

/-- The set that the members make up, added one after another. -/
def ofList (ms : List ScoredMember) : SortedSet :=
  ms.foldl (fun z m => (z.insert m.member m.score).2) empty

end SortedSet
end TierCache
