import TierCache.Proofs.Value.Contents

/-!
Runs of changes to a sorted set. Whatever members were given which scores, be they negative zero or no
numbers, both indexes hold the same: of each member the last score that it was given, unless it was removed
since.
-/
namespace TierCache
open Std

namespace ScoredMember

theorem compare_eq_lt {m n : ScoredMember} : compare m n = .lt ↔
    m.score.rank < n.score.rank ∨ m.score.rank = n.score.rank ∧ m.member < n.member := by
  simp only [compare, compareLex, compareOn, Ordering.then_eq_lt, Int.compare_eq_lt,
    Std.compare_eq_iff_eq]
  rw [show Ord.compare m.member n.member = compareOfLessAndEq m.member n.member from rfl,
    compareOfLessAndEq_eq_lt]

end ScoredMember

namespace SortedSet

inductive Change
  | insert (member : String) (score : Binary64)
  | remove (member : String)

namespace Change

def member : Change → String
  | insert member _ => member
  | remove member => member

/-- Carries out a change. Tells of an inserted member whether it is new, of a removed one whether it was
there. -/
def perform (z : SortedSet) : Change → Bool × SortedSet
  | insert member score => z.insert member score
  | remove member => z.remove member

/-- The change that adds a member with its score. -/
def add (m : ScoredMember) : Change := insert m.member m.score

end Change

/-- The set after a run of changes. -/
def after (z : SortedSet) (changes : List Change) : SortedSet :=
  changes.foldl (fun z c => (c.perform z).2) z

/-- The last of the changes that name the member inserted it with the score. -/
def LastScore (changes : List Change) (member : String) (score : Binary64) : Prop :=
  ∃ earlier later, changes = earlier ++ .insert member score :: later ∧ ∀ c ∈ later, c.member ≠ member

theorem lastScore_concat {changes : List Change} {c : Change} {member : String} {score : Binary64} :
    LastScore (changes ++ [c]) member score ↔
      if c.member = member then c = .insert member score else LastScore changes member score := by
  constructor
  · rintro ⟨earlier, later, heq, hlater⟩
    obtain rfl | ⟨front, last, rfl⟩ := List.eq_nil_or_concat later
    · obtain ⟨rfl, hlast⟩ := List.append_inj' heq rfl
      obtain rfl := List.singleton_inj.mp hlast
      exact (if_pos rfl).mpr rfl
    · rw [List.concat_eq_append, ← List.cons_append, ← List.append_assoc] at heq
      obtain ⟨rfl, hlast⟩ := List.append_inj' heq rfl
      obtain rfl := List.singleton_inj.mp hlast
      simp only [List.concat_eq_append, List.forall_mem_append, List.forall_mem_singleton] at hlater
      rw [if_neg hlater.2]
      exact ⟨earlier, front, rfl, hlater.1⟩
  · intro h
    split at h
    · subst h
      exact ⟨changes, [], rfl, List.forall_mem_nil _⟩
    · rename_i hother
      obtain ⟨earlier, later, rfl, hlater⟩ := h
      refine ⟨earlier, later ++ [c], by rw [List.append_assoc, List.cons_append], ?_⟩
      rw [List.forall_mem_append, List.forall_mem_singleton]
      exact ⟨hlater, hother⟩

theorem score?_perform (z : SortedSet) (c : Change) (member : String) (score : Binary64) :
    (c.perform z).2.score? member = some score ↔
      if c.member = member then c = .insert member score else z.score? member = some score := by
  cases c with
  | insert name given =>
    rw [Change.perform, score?, insert_scores, Tree.get_insert, Change.member]
    split
    · rename_i hname
      subst hname
      rw [Option.some.injEq, Change.insert.injEq, and_iff_right rfl]
    · rfl
  | remove name =>
    rw [Change.perform, score?, remove_scores, Tree.get_erase, Change.member]
    split
    · exact iff_of_false nofun nofun
    · rfl

/-- The score of a member is the last one that it was given, unless it was removed since. -/
theorem score?_after (changes : List Change) (member : String) (score : Binary64) :
    (empty.after changes).score? member = some score ↔ LastScore changes member score := by
  induction changes using List.reverseRecOn with
  | nil =>
    refine iff_of_false (by simp [after, score?, empty]) ?_
    rintro ⟨earlier, later, heq, -⟩
    cases earlier <;> cases heq
  | append_singleton changes c ih =>
    have hlast : empty.after (changes ++ [c]) = (c.perform (empty.after changes)).2 := by
      rw [after, after, List.foldl_append, List.foldl_cons, List.foldl_nil]
    rw [hlast, score?_perform, lastScore_concat, ih]

theorem ofList_after (ms : List ScoredMember) (changes : List Change) :
    (ofList ms).after changes = empty.after (ms.map .add ++ changes) := by
  rw [after, after, List.foldl_append, List.foldl_map]
  rfl

variable (z : SortedSet)

/-- Members are in order by score and then by name. -/
theorem ordered_toList : z.toList.Pairwise fun m n =>
    m.score.rank < n.score.rank ∨ m.score.rank = n.score.rank ∧ m.member < n.member :=
  z.ordered.ordered_toList.imp ScoredMember.compare_eq_lt.mp

/-- The members in order are those that have a score, each once. -/
theorem toList_perm : (z.toList.map fun m => (m.member, m.score)).Perm z.scores.toList := by
  have hinj : Function.Injective fun m : ScoredMember => (m.member, m.score) := by
    intro m n heq
    exact ScoredMember.ext (congrArg Prod.fst heq) (congrArg Prod.snd heq)
  have hnodup : z.toList.Nodup := z.distinct_toList.imp fun hne heq => hne (congrArg _ heq)
  rw [List.perm_ext_iff_of_nodup (hnodup.map hinj) (Tree.nodup_toList z.scores)]
  rintro ⟨member, score⟩
  rw [ExtTreeMap.mem_toList_iff_getElem?_eq_some]
  constructor
  · intro h
    obtain ⟨m, hm, ⟨⟩⟩ := List.mem_map.mp h
    exact z.mem_toList.mp hm
  · intro h
    exact List.mem_map.mpr ⟨⟨member, score⟩, z.mem_toList.mpr h, rfl⟩

theorem mem_names {member : String} :
    member ∈ z.toList.map (·.member) ↔ z.scores.contains member = true := by
  rw [ExtTreeMap.contains_eq_isSome_getElem?, Option.isSome_iff_exists, List.mem_map]
  constructor
  · rintro ⟨m, hm, rfl⟩
    exact ⟨m.score, z.mem_toList.mp hm⟩
  · rintro ⟨score, hscore⟩
    exact ⟨⟨member, score⟩, z.mem_toList.mpr hscore, rfl⟩

/-- Whatever list a set starts from and whatever is inserted and removed, the members in order are those of
the index of scores, each once and with its score; each is in front of those with greater scores, and of
those with the same score and greater names. A score is the last one that the member was given, unless it
was removed since. An inserted member is told to be new if it is not among the members, and a removed one
to have been there if it is. The members make the set up again. -/
theorem after_changes (ms : List ScoredMember) (changes : List Change) :
    let z := (ofList ms).after changes
    (z.toList.map fun m => (m.member, m.score)).Perm z.scores.toList ∧ z.size = z.scores.size ∧
    (z.toList.Pairwise fun m n =>
      m.score.rank < n.score.rank ∨ m.score.rank = n.score.rank ∧ m.member < n.member) ∧
    (∀ member score, z.score? member = some score ↔
      LastScore (ms.map .add ++ changes) member score) ∧
    (∀ member score, (z.insert member score).1 = true ↔ member ∉ z.toList.map (·.member)) ∧
    (∀ member, (z.remove member).1 = true ↔ member ∈ z.toList.map (·.member)) ∧
    ofList z.toList = z := by
  intro z
  have hperm := z.toList_perm
  refine ⟨hperm, ?_, z.ordered_toList, ?_, ?_, ?_, z.ofList_toList⟩
  · rw [← ExtTreeMap.length_toList, ← hperm.length_eq, List.length_map]
    exact ExtTreeSet.length_toList.symm
  · intro member score
    rw [← score?_after, ← ofList_after]
  · intro member score
    rw [insert_fst, mem_names, Bool.not_eq_true', Bool.not_eq_true]
  · intro member
    rw [remove_fst, mem_names]

end SortedSet
end TierCache
