import TierCache.Proofs.Engine.Operation
import TierCache.Proofs.Value.Contents

/-!
What the operations on contents mean: each is one on a number, a text, a finite map, a list, a finite set
or a map from members to scores. Of an argument that is repeated in one change, only the first counts as
new or as there.
-/
namespace TierCache
open Std

namespace Value

theorem isEmptyContainer_hash {h : ExtTreeMap String String} (hne : h ≠ ∅) :
    (Value.hash h).isEmptyContainer = false :=
  eq_false_of_ne_true fun hempty => hne (ExtTreeMap.isEmpty_iff.mp hempty)

theorem isEmptyContainer_list {xs : List String} (hne : xs ≠ []) :
    (Value.list xs).isEmptyContainer = false :=
  List.isEmpty_eq_false_iff.mpr hne

theorem isEmptyContainer_set {s : ExtTreeSet String} (hne : s ≠ ∅) :
    (Value.set s).isEmptyContainer = false :=
  eq_false_of_ne_true fun hempty => hne (ExtTreeSet.isEmpty_iff.mp hempty)

theorem isEmptyContainer_sortedSet {z : SortedSet} (hne : z.scores ≠ ∅) :
    (Value.sortedSet z).isEmptyContainer = false :=
  eq_false_of_ne_true fun hempty => hne (z.isEmpty_iff.mp hempty)

end Value

namespace Engine.Contents

/-- What is taken out is what was put in. -/
structure Lawful {β : Type} (c : Contents β) : Prop where
  wrap_of? {v : Value} {b : β} (h : c.of? v = some b) : c.wrap b = v
  of?_wrap (b : β) : c.of? (c.wrap b) = some b

theorem Lawful.wrap_ne {β : Type} {c : Contents β} (h : c.Lawful) {b b' : β} (hne : b ≠ b') :
    c.wrap b ≠ c.wrap b' := by
  intro heq
  have hof := h.of?_wrap b
  rw [heq, h.of?_wrap b'] at hof
  exact hne (Option.some.inj hof).symm

end Engine.Contents

namespace Typed

open Engine (Contents)

/-- The replies and the contents after it that are right for contents before it. -/
structure Meaning (α : Type) : Type 1 where
  {β : Type}
  contents : Contents β
  right : β → Except CacheError α → β → Prop

namespace Meaning

variable {α β : Type}

/-- A change that always succeeds. -/
def changes (c : Contents β) (right : β → α → β → Prop) : Meaning α :=
  ⟨c, fun b reply b' => ∃ a, reply = .ok a ∧ right b a b'⟩

def reads (c : Contents β) (right : β → α → Prop) : Meaning α :=
  ⟨c, fun b reply b' => b' = b ∧ ∃ a, reply = .ok a ∧ right b a⟩

/-- A value of another type is refused and stays. -/
def Meets (m : Meaning α) (before : Value) (reply : Except CacheError α) (after : Value) : Prop :=
  match m.contents.of? before with
  | some b => ∃ b', m.right b reply b' ∧ after = m.contents.wrap b'
  | none => reply = .error .wrongType ∧ after = before

section
variable {m : Meaning α} {before : Value} {reply : Except CacheError α}

theorem Meets.wrongType (hof : m.contents.of? before = none) :
    m.Meets before (.error .wrongType) before := by
  rw [Meets, hof]
  exact ⟨rfl, rfl⟩

theorem Meets.of_right {b b' : m.β} (hof : m.contents.of? before = some b) (hright : m.right b reply b') :
    m.Meets before reply (m.contents.wrap b') := by
  rw [Meets, hof]
  exact ⟨b', hright, rfl⟩

end
end Meaning

def meaning : {α : Type} → Typed α → Meaning α
  | _, .incrBy delta => ⟨.text, fun s reply s' =>
      (∃ n m : Int64, Edit.CountsAs s n ∧ m.toInt = n.toInt + delta.toInt ∧
        reply = .ok m ∧ s' = toString m.toInt) ∨
      (¬∃ n m : Int64, Edit.CountsAs s n ∧ m.toInt = n.toInt + delta.toInt) ∧
        reply = .error .notInteger ∧ s' = s⟩
  | _, .append suffix => .changes .text fun s n s' => n = s'.utf8ByteSize ∧ s' = s ++ suffix
  | _, .hset pairs => .changes .hash fun h n h' =>
      n = ((pairs.map (·.1)).toFinset.filter (· ∉ h)).card ∧
        ∀ f : String, h'[f]? = (pairs.reverse.lookup f).or h[f]?
  | _, .hget field => .reads .hash fun h text => text = h[field]?
  | _, .hgetAll => .reads .hash fun h rows =>
      rows.Pairwise (·.1 < ·.1) ∧ ∀ row, row ∈ rows ↔ h[row.1]? = some row.2
  | _, .hdel fields => .changes .hash fun h n h' =>
      n = (fields.toFinset.filter (· ∈ h)).card ∧
        ∀ f : String, h'[f]? = if f ∈ fields then none else h[f]?
  | _, .pushHead items => .changes .list fun xs n xs' =>
      n = xs'.length ∧ xs' = items.foldl (fun xs x => x :: xs) xs
  | _, .pushTail items => .changes .list fun xs n xs' =>
      n = xs'.length ∧ xs' = items.foldl (fun xs x => xs ++ [x]) xs
  | _, .popHead => .changes .list fun xs x xs' => x = xs.head? ∧ xs' = xs.tail
  | _, .popTail => .changes .list fun xs x xs' => x = xs.getLast? ∧ xs' = xs.dropLast
  | _, .listRange start stop => .reads .list fun xs part => part = Range.slice xs start stop
  | _, .listLength => .reads .list fun xs n => n = xs.length
  | _, .setAdd members => .changes .set fun s n s' =>
      n = (members.toFinset.filter (· ∉ s)).card ∧ ∀ m, m ∈ s' ↔ m ∈ members ∨ m ∈ s
  | _, .setMembers => .reads .set fun s ms => ms.Pairwise (· < ·) ∧ ∀ m, m ∈ ms ↔ m ∈ s
  | _, .setRemove members => .changes .set fun s n s' =>
      n = (members.toFinset.filter (· ∈ s)).card ∧ ∀ m, m ∈ s' ↔ m ∉ members ∧ m ∈ s
  | _, .setContains member => .reads .set fun s found => found = true ↔ member ∈ s
  | _, .sortedAdd members => .changes .sortedSet fun z n z' =>
      n = ((members.map (·.2)).toFinset.filter fun m => z.score? m = none).card ∧
        ∀ m, z'.score? m = ((members.map Prod.swap).reverse.lookup m).or (z.score? m)
  | _, .sortedRange start stop => .reads .sortedSet fun z part =>
      ∃ ranked : List ScoredMember, ranked.Pairwise (ScoredMember.compare · · = .lt) ∧
        (∀ m, m ∈ ranked ↔ z.score? m.member = some m.score) ∧ part = Range.slice ranked start stop
  | _, .sortedRemove members => .changes .sortedSet fun z n z' =>
      n = (members.toFinset.filter fun m => z.score? m ≠ none).card ∧
        ∀ m, z'.score? m = if m ∈ members then none else z.score? m
  | _, .sortedScore member => .reads .sortedSet fun z score => score = z.score? member

/-- All scores that an operation gives are finite. -/
def finite {α : Type} : Typed α → Bool
  | .sortedAdd members => members.all (·.1.isFinite)
  | _ => true

/-- Whether an operation writes contents that it leaves as they are. -/
def overwrites {α : Type} : Typed α → Bool
  | .incrBy _ | .append _ | .hset _ | .sortedAdd _ => true
  | _ => false

/-! ### Plans -/

namespace Meaning

variable {α : Type}

/-- A change does what is right, is written only where contents differ or are overwritten, and never
empties what was empty. -/
structure Suits (m : Meaning α) (overwrites : Bool) (b : m.β) (edit : Edit α m.β) : Prop where
  right : m.right b (.ok edit.result) edit.after
  kept (h : edit.changed = false) : edit.after = b
  differs (h : edit.changed = true) : edit.after ≠ b ∨ overwrites = true
  fills (h : edit.changed = true) (hnothing : m.contents.wrap b = .empty m.contents.dataType) :
    (m.contents.wrap edit.after).isEmptyContainer = false

/-- A change is refused where that is right, and suits otherwise. -/
def Allows (m : Meaning α) (overwrites : Bool) (b : m.β) : Except CacheError (Edit α m.β) → Prop
  | .error err => m.right b (.error err) b
  | .ok edit => m.Suits overwrites b edit

/-- A plan goes about contents as it should. An absent key counts as contents that hold nothing. -/
inductive Serves (m : Meaning α) (overwrites : Bool) : Plan α → Prop
  | upsert {change : m.β → Except CacheError (Edit α m.β)}
      (h : ∀ b, m.Allows overwrites b (change b)) : Serves m overwrites (.upsert m.contents change)
  | update {absent : α} {change : m.β → Edit α m.β} (h : ∀ b, m.Suits overwrites b (change b))
      {nothing : m.β} (hof : m.contents.of? (.empty m.contents.dataType) = some nothing)
      (hsame : (change nothing).changed = false) (hempty : (change nothing).result = absent) :
      Serves m overwrites (.update m.contents absent change)
  | inspect {absent : α} {read : m.β → α} (h : ∀ b, m.right b (.ok (read b)) b)
      {nothing : m.β} (hof : m.contents.of? (.empty m.contents.dataType) = some nothing)
      (hempty : read nothing = absent) :
      Serves m overwrites (.inspect m.contents absent read)

theorem Serves.reading {β : Type} {c : Contents β} {right : β → α → Prop} {overwrites : Bool}
    {absent : α} {read : β → α} (h : ∀ b, right b (read b)) {nothing : β}
    (hof : c.of? (.empty c.dataType) = some nothing) (hempty : read nothing = absent) :
    (reads c right).Serves overwrites (.inspect c absent read) :=
  .inspect (fun b => ⟨rfl, _, rfl, h b⟩) hof hempty

/-- What makes a difference is counted, and written if there is any. -/
theorem Suits.counted {m : Meaning Nat} {overwrites : Bool} {b after : m.β} {n : Nat}
    (right : m.right b (.ok n) after) (hsame : n = 0 → after = b)
    (hdiffers : 0 < n → after ≠ b ∧ (m.contents.wrap b ≠ .empty m.contents.dataType ∨
      (m.contents.wrap after).isEmptyContainer = false)) :
    m.Suits overwrites b ⟨n, 0 < n, after⟩ where
  right := right
  kept h := hsame (Nat.eq_zero_of_not_pos (of_decide_eq_false h))
  differs h := .inl (hdiffers (of_decide_eq_true h)).1
  fills h hnothing := (hdiffers (of_decide_eq_true h)).2.resolve_left (not_not_intro hnothing)

/-- Arguments are written if there are any. -/
theorem Suits.given {γ : Type} {m : Meaning α} {overwrites : Bool} {b after : m.β} {a : α}
    {args : List γ} (right : m.right b (.ok a) after) (hsame : args = [] → after = b)
    (hdiffers : args ≠ [] → (after ≠ b ∨ overwrites = true) ∧
      (m.contents.wrap after).isEmptyContainer = false) :
    m.Suits overwrites b ⟨a, !args.isEmpty, after⟩ where
  right := right
  kept h := hsame (by simpa using h)
  differs h := (hdiffers (by simpa using h)).1
  fills h _ := (hdiffers (by simpa using h)).2

end Meaning

theorem lawful {α : Type} (op : Typed α) : op.meaning.contents.Lawful := by
  cases op <;>
    exact ⟨fun {v b} h => by cases v <;> cases h; rfl, fun _ => rfl⟩

theorem allows_incrBy (delta : Int64) (text : String) :
    (incrBy delta).meaning.Allows true text (Edit.incr delta text) := by
  obtain ⟨n, m, htext, hsum, hincr⟩ | ⟨hnone, hincr⟩ := Edit.incr_cases delta text
  · rw [hincr]
    refine ⟨.inl ⟨n, m, htext, hsum, rfl, rfl⟩, nofun, fun _ => .inr rfl, ?_⟩
    exact fun _ _ => rfl
  · rw [hincr]
    exact .inr ⟨hnone, rfl, rfl⟩

variable (fields : ExtTreeMap String String) (elements : ExtTreeSet String)

theorem suits_hset (pairs : List (String × String)) :
    (hset pairs).meaning.Suits true fields (Edit.setFields pairs fields) := by
  rw [Edit.setFields_eq]
  apply Meaning.Suits.given
  · refine ⟨_, rfl, ?_, Edit.get_foldl_insert pairs fields⟩
    apply congrArg Finset.card
    apply Finset.filter_congr
    intro f _
    rw [← ExtTreeMap.contains_iff_mem, Bool.not_eq_true]
  · rintro rfl
    rfl
  · intro hpairs
    exact ⟨.inr rfl, Value.isEmptyContainer_hash (Edit.foldl_insert_ne_empty hpairs fields)⟩

theorem suits_hdel (names : List String) :
    (hdel names).meaning.Suits false fields (Edit.removeFields names fields) := by
  rw [Edit.removeFields_eq]
  apply Meaning.Suits.counted
  · exact ⟨_, rfl, rfl, Edit.get_foldl_erase names fields⟩
  · exact (Edit.foldl_erase_differs names fields).1
  · intro hsome
    obtain ⟨hne, hsource⟩ := (Edit.foldl_erase_differs names fields).2 hsome
    exact ⟨hne, .inl fun hnothing => hsource (Value.hash.inj hnothing)⟩

theorem suits_setAdd (members : List String) :
    (setAdd members).meaning.Suits false elements (Edit.addMembers members elements) := by
  rw [Edit.addMembers_eq]
  apply Meaning.Suits.counted
  · refine ⟨_, rfl, ?_, Edit.mem_foldl_insert members elements⟩
    apply congrArg Finset.card
    apply Finset.filter_congr
    intro m _
    rw [← ExtTreeSet.contains_iff_mem, Bool.not_eq_true]
  · exact (Edit.foldl_insert_members_differs members elements).1
  · intro hsome
    obtain ⟨hne, hresult⟩ := (Edit.foldl_insert_members_differs members elements).2 hsome
    exact ⟨hne, .inr (Value.isEmptyContainer_set hresult)⟩

theorem suits_setRemove (members : List String) :
    (setRemove members).meaning.Suits false elements (Edit.removeMembers members elements) := by
  rw [Edit.removeMembers_eq]
  apply Meaning.Suits.counted
  · exact ⟨_, rfl, rfl, Edit.mem_foldl_erase members elements⟩
  · exact (Edit.foldl_erase_members_differs members elements).1
  · intro hsome
    obtain ⟨hne, hsource⟩ := (Edit.foldl_erase_members_differs members elements).2 hsome
    exact ⟨hne, .inl fun hnothing => hsource (Value.set.inj hnothing)⟩

theorem suits_sortedAdd (members : List (Binary64 × String)) (z : SortedSet) :
    (sortedAdd members).meaning.Suits true z (Edit.addScored members z) := by
  rw [Edit.addScored_eq]
  apply Meaning.Suits.given
  · refine ⟨_, rfl, ?_, fun m => ?_⟩
    · apply congrArg Finset.card
      apply Finset.filter_congr
      intro m _
      rw [SortedSet.score?, ExtTreeMap.contains_eq_isSome_getElem?, Option.isSome_eq_false_iff,
        Option.isNone_iff_eq_none]
    · rw [SortedSet.score?, Edit.scores_foldl_insert, Edit.get_foldl_insert]
      rfl
  · rintro rfl
    rfl
  · intro hmembers
    refine ⟨.inr rfl, Value.isEmptyContainer_sortedSet ?_⟩
    rw [Edit.scores_foldl_insert]
    exact Edit.foldl_insert_ne_empty (mt List.map_eq_nil_iff.mp hmembers) z.scores

theorem suits_sortedRemove (members : List String) (z : SortedSet) :
    (sortedRemove members).meaning.Suits false z (Edit.removeScored members z) := by
  rw [Edit.removeScored_eq]
  obtain ⟨hsame, hdiffers⟩ := Edit.foldl_erase_differs members z.scores
  apply Meaning.Suits.counted
  · refine ⟨_, rfl, ?_, fun m => ?_⟩
    · apply congrArg Finset.card
      apply Finset.filter_congr
      intro m _
      rw [SortedSet.score?, ExtTreeMap.contains_eq_isSome_getElem?, Option.isSome_iff_ne_none]
    · rw [SortedSet.score?, Edit.scores_foldl_remove, Edit.get_foldl_erase]
      rfl
  · intro hnone
    apply SortedSet.ext_scores
    rw [Edit.scores_foldl_remove]
    exact hsame hnone
  · intro hsome
    obtain ⟨hne, hsource⟩ := hdiffers hsome
    constructor
    · intro heq
      rw [← Edit.scores_foldl_remove, heq] at hne
      exact hne rfl
    · exact .inl fun hnothing => hsource (congrArg SortedSet.scores (Value.sortedSet.inj hnothing))

theorem suits_pushHead (items xs : List String) :
    (pushHead items).meaning.Suits false xs (Edit.pushHead items xs) := by
  apply Meaning.Suits.given
  · exact ⟨_, rfl, rfl, by simp⟩
  · rintro rfl
    rfl
  · intro hitems
    refine ⟨.inl (mt List.append_left_eq_self.mp (mt List.reverse_eq_nil_iff.mp hitems)), ?_⟩
    apply Value.isEmptyContainer_list
    simp [hitems]

theorem suits_pushTail (items xs : List String) :
    (pushTail items).meaning.Suits false xs (Edit.pushTail items xs) := by
  have hpush (items xs : List String) : xs ++ items = items.foldl (fun xs x => xs ++ [x]) xs := by
    induction items generalizing xs with
    | nil => exact List.append_nil xs
    | cons x rest ih => rw [List.foldl_cons, ← ih, List.append_assoc, List.singleton_append]
  apply Meaning.Suits.given
  · exact ⟨_, rfl, rfl, hpush items xs⟩
  · rintro rfl
    exact List.append_nil xs
  · intro hitems
    refine ⟨.inl (mt List.append_right_eq_self.mp hitems), ?_⟩
    apply Value.isEmptyContainer_list
    simp [hitems]

theorem suits_popHead (xs : List String) : popHead.meaning.Suits false xs (Edit.popHead xs) := by
  cases xs with
  | nil => exact ⟨⟨_, rfl, rfl, rfl⟩, fun _ => rfl, nofun, nofun⟩
  | cons x rest =>
    exact ⟨⟨_, rfl, rfl, rfl⟩, nofun, fun _ => .inl (List.cons_ne_self x rest).symm, nofun⟩

theorem suits_popTail (xs : List String) : popTail.meaning.Suits false xs (Edit.popTail xs) := by
  cases xs with
  | nil => exact ⟨⟨_, rfl, rfl, rfl⟩, fun _ => rfl, nofun, nofun⟩
  | cons x rest =>
    refine ⟨⟨_, rfl, rfl, rfl⟩, nofun, fun _ => .inl fun heq => ?_, nofun⟩
    have hlength := congrArg List.length heq
    simp [Edit.popTail] at hlength

/-- Every operation is planned as it should be, unless a score is not finite. -/
theorem plan_serves {α : Type} {op : Typed α} (hfinite : op.finite = true) :
    op.meaning.Serves op.overwrites op.plan := by
  cases op with
  | incrBy delta => exact .upsert (allows_incrBy delta)
  | append suffix =>
    exact .upsert fun s => ⟨⟨_, rfl, rfl, rfl⟩, nofun, fun _ => .inr rfl, fun _ _ => rfl⟩
  | hset pairs => exact .upsert fun h => suits_hset h pairs
  | pushHead items => exact .upsert (suits_pushHead items)
  | pushTail items => exact .upsert (suits_pushTail items)
  | setAdd members => exact .upsert fun s => suits_setAdd s members
  | sortedAdd members =>
    have hplan : (sortedAdd members).plan =
        .upsert .sortedSet fun z => .ok (Edit.addScored members z) := if_pos hfinite
    rw [hplan]
    exact .upsert (suits_sortedAdd members)
  | hdel names =>
    apply Meaning.Serves.update (suits_hdel · names)
    · rfl
    · simp [Edit.removeFields_eq]
    · simp [Edit.removeFields_eq]
  | popHead => apply Meaning.Serves.update suits_popHead <;> rfl
  | popTail => apply Meaning.Serves.update suits_popTail <;> rfl
  | setRemove members =>
    apply Meaning.Serves.update (suits_setRemove · members)
    · rfl
    · simp [Edit.removeMembers_eq]
    · simp [Edit.removeMembers_eq]
  | sortedRemove members =>
    apply Meaning.Serves.update (suits_sortedRemove members)
    · rfl
    · simp [Edit.removeScored_eq, SortedSet.empty]
    · simp [Edit.removeScored_eq, SortedSet.empty]
  | hget field => exact .reading (fun _ => rfl) rfl rfl
  | hgetAll =>
    refine .reading (fun h => ⟨?_, fun _ => ExtTreeMap.mem_toList_iff_getElem?_eq_some⟩) rfl rfl
    exact h.ordered_keys_toList.imp compareOfLessAndEq_eq_lt.mp
  | listRange start stop => exact .reading (fun _ => rfl) rfl rfl
  | listLength => exact .reading (fun _ => rfl) rfl rfl
  | setMembers =>
    refine .reading (fun s => ⟨?_, fun _ => ExtTreeSet.mem_toList⟩) rfl rfl
    exact s.ordered_toList.imp compareOfLessAndEq_eq_lt.mp
  | setContains member => exact .reading (fun _ => ExtTreeSet.contains_iff_mem) rfl rfl
  | sortedRange start stop =>
    exact .reading (fun z => ⟨_, z.ordered.ordered_toList, fun _ => z.mem_toList, rfl⟩) rfl rfl
  | sortedScore member => exact .reading (fun _ => rfl) rfl rfl

theorem plan_refuses {α : Type} {op : Typed α} (hfinite : op.finite ≠ true) :
    op.plan = .refuse (.invalidRequest "value is not a valid float") := by
  cases op with
  | sortedAdd members => exact if_neg hfinite
  | _ => exact absurd rfl hfinite

end Typed
end TierCache
