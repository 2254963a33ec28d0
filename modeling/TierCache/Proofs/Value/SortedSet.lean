import TierCache.Proofs.Tree
import TierCache.Value.SortedSet

/-!
What a sorted set holds after its members come and go, and that its members in order make it up
again.
-/
namespace TierCache.SortedSet
open Std

variable (z : SortedSet)

/-- Each index tells the other. -/
theorem ext_scores {z w : SortedSet} (h : z.scores = w.scores) : z = w := by
  have hordered : z.ordered = w.ordered := by
    apply ExtTreeSet.ext_mem
    intro m
    rw [z.indexed, w.indexed, h]
  cases z
  cases w
  simp only at h hordered
  subst h hordered
  rfl

@[simp] theorem insert_scores (member : String) (score : Binary64) :
    (z.insert member score).2.scores = z.scores.insert member score := by
  unfold insert
  split <;> rfl

@[simp] theorem remove_scores (member : String) :
    (z.remove member).2.scores = z.scores.erase member := by
  unfold remove
  split
  · rfl
  · rename_i hnone
    exact (Tree.erase_of_none _ hnone).symm

theorem mem_toList {m : ScoredMember} : m ∈ z.toList ↔ z.scores[m.member]? = some m.score := by
  rw [toList, ExtTreeSet.mem_toList, z.indexed]

/-- No member is listed twice. -/
theorem distinct_toList : z.toList.Pairwise fun m n => m.member ≠ n.member := by
  refine z.ordered.ordered_toList.imp_of_mem ?_
  intro m n hm hn hless heq
  have hmscore := z.mem_toList.1 hm
  have hnscore := z.mem_toList.1 hn
  rw [heq, hnscore] at hmscore
  have hsame : m = n := ScoredMember.ext heq (Option.some.inj hmscore).symm
  subst hsame
  have hself : ScoredMember.compare m m = .eq := ReflCmp.compare_self
  rw [hself] at hless
  cases hless

/-- The scores after members with different names were added. -/
theorem scores_foldl {ms : List ScoredMember} (h : ms.Pairwise fun m n => m.member ≠ n.member)
    (member : String) (score : Binary64) :
    (ms.foldl (fun z m => (z.insert m.member m.score).2) z).scores[member]? = some score ↔
      ⟨member, score⟩ ∈ ms ∨ (∀ m ∈ ms, m.member ≠ member) ∧ z.scores[member]? = some score := by
  induction ms generalizing z with
  | nil => simp
  | cons first rest ih =>
    rw [List.pairwise_cons] at h
    rw [List.foldl_cons, ih _ h.2, insert_scores, Tree.get_insert, List.mem_cons,
      List.forall_mem_cons]
    by_cases hfirst : first.member = member
    · subst hfirst
      have hout : ∀ m ∈ rest, m.member ≠ first.member := fun m hm => (h.1 m hm).symm
      have habsent : (⟨first.member, score⟩ : ScoredMember) ∉ rest := fun hm => hout _ hm rfl
      have hsame : (⟨first.member, score⟩ : ScoredMember) = first ↔ first.score = score := by
        rw [ScoredMember.ext_iff, eq_comm (a := score)]
        exact and_iff_right rfl
      rw [if_pos rfl, hsame, Option.some.injEq]
      constructor
      · rintro (hm | ⟨-, heq⟩)
        · exact absurd hm habsent
        · exact .inl (.inl heq)
      · rintro ((heq | hm) | ⟨⟨hne, -⟩, -⟩)
        · exact .inr ⟨hout, heq⟩
        · exact absurd hm habsent
        · exact absurd rfl hne
    · have hother : (⟨member, score⟩ : ScoredMember) ≠ first := by
        rintro rfl
        exact hfirst rfl
      simp [hfirst, hother]

theorem ofList_toList : ofList z.toList = z := by
  apply ext_scores
  apply ExtTreeMap.ext_getElem?
  intro member
  apply Option.ext
  intro score
  rw [ofList, scores_foldl _ z.distinct_toList, mem_toList]
  simp [empty]

/-! ### Finite scores -/

/-- Every score is a finite number. -/
def AllFinite : Prop := ∀ m ∈ z.toList, m.score.isFinite = true

theorem allFinite_iff :
    z.AllFinite ↔ ∀ (member : String) (score : Binary64),
      z.scores[member]? = some score → score.isFinite = true := by
  constructor
  · intro h member score hscore
    exact h ⟨member, score⟩ (z.mem_toList.2 hscore)
  · intro h m hm
    exact h m.member m.score (z.mem_toList.1 hm)

variable {z}

theorem AllFinite.insert (h : z.AllFinite) (member : String) {score : Binary64}
    (hscore : score.isFinite = true) : (z.insert member score).2.AllFinite := by
  rw [allFinite_iff] at h ⊢
  intro other found hfound
  rw [insert_scores, Tree.get_insert] at hfound
  split at hfound
  · cases hfound
    exact hscore
  · exact h other found hfound

theorem AllFinite.remove (h : z.AllFinite) (member : String) : (z.remove member).2.AllFinite := by
  rw [allFinite_iff] at h ⊢
  intro other found hfound
  rw [remove_scores, Tree.get_erase] at hfound
  split at hfound
  · cases hfound
  · exact h other found hfound

theorem AllFinite.empty : SortedSet.empty.AllFinite := by
  rw [allFinite_iff]
  intro member score hscore
  simp [SortedSet.empty] at hscore

end TierCache.SortedSet
