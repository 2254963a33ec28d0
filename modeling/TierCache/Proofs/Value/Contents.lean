import Mathlib.Data.Finset.Card
import TierCache.Proofs.Value.SortedSet
import TierCache.Value.Edit

/-!
What changes to contents come to, in terms of numbers, finite maps and finite sets: which decimals are
read, what a container holds of a key after a run of arguments, and how many of them made a difference.
-/
namespace TierCache
open Std

/-! ### Decimals -/

namespace Text

/-- The characters are decimal digits, one at least, and write a number in base ten. -/
def Digits (cs : List Char) (n : Nat) : Prop :=
  cs ≠ [] ∧ (∀ c ∈ cs, '0' ≤ c ∧ c ≤ '9') ∧ cs.foldl (fun n c => n * 10 + (c.toNat - 48)) 0 = n

/-- The text of an integer: digits, maybe after a sign. -/
def Decimal (cs : List Char) (n : Int) : Prop :=
  (∃ m : Nat, Digits cs m ∧ n = m) ∨ (∃ ds m, cs = '+' :: ds ∧ Digits ds m ∧ n = m) ∨
    ∃ ds m, cs = '-' :: ds ∧ Digits ds m ∧ n = -m

theorem digit?_eq_some {c : Char} {d : Nat} :
    digit? c = some d ↔ ('0' ≤ c ∧ c ≤ '9') ∧ c.toNat - 48 = d := by
  have hrange : ('0' ≤ c ∧ c ≤ '9') ↔ (48 ≤ c.toNat ∧ c.toNat ≤ 57) := Iff.rfl
  rw [digit?, hrange]
  split
  · rename_i h
    rw [Option.some.injEq, and_iff_right h]
  · rename_i h
    exact iff_of_false nofun fun h' => h h'.1

theorem digitsFrom_eq_some {acc n : Nat} {cs : List Char} :
    digitsFrom acc cs = some n ↔ (∀ c ∈ cs, '0' ≤ c ∧ c ≤ '9') ∧
      cs.foldl (fun n c => n * 10 + (c.toNat - 48)) acc = n := by
  induction cs generalizing acc with
  | nil => simp [digitsFrom]
  | cons c cs ih =>
    rw [digitsFrom, List.forall_mem_cons, List.foldl_cons]
    cases hd : digit? c with
    | none =>
      refine iff_of_false nofun fun h => ?_
      cases hd.symm.trans (digit?_eq_some.mpr ⟨h.1.1, rfl⟩)
    | some d =>
      obtain ⟨hc, rfl⟩ := digit?_eq_some.mp hd
      rw [ih, and_iff_right hc]

theorem digits?_eq_some {cs : List Char} {n : Nat} : digits? cs = some n ↔ Digits cs n := by
  cases cs with
  | nil => exact iff_of_false nofun fun h => h.1 rfl
  | cons c cs => rw [digits?, digitsFrom_eq_some, Digits, and_iff_right (List.cons_ne_nil c cs)]; exact nofun

theorem int64OfInt?_eq_some {n : Int} {m : Int64} : int64OfInt? n = some m ↔ m.toInt = n := by
  unfold int64OfInt?
  split
  · rename_i h
    rw [Option.some.injEq]
    constructor
    · rintro rfl
      exact Int64.toInt_ofInt_of_le h.1 h.2
    · rintro rfl
      exact m.ofInt_toInt
  · rename_i h
    refine iff_of_false nofun ?_
    rintro rfl
    exact h ⟨m.le_toInt, m.toInt_lt⟩

/-- A number is read from its decimals and from nothing else. -/
theorem int64?_eq_some {s : String} {n : Int64} : int64? s = some n ↔ Decimal s.toList n.toInt := by
  -- what is no digit begins no digits
  have hsign {c : Char} (hc : ¬('0' ≤ c ∧ c ≤ '9')) (cs : List Char) (m : Nat) : ¬Digits (c :: cs) m :=
    fun h => hc (h.2.1 c (.head cs))
  have hread (cs : List Char) (f : Nat → Int) :
      ((digits? cs).bind fun m => int64OfInt? (f m)) = some n ↔ ∃ m, Digits cs m ∧ n.toInt = f m := by
    simp only [Option.bind_eq_some_iff, digits?_eq_some, int64OfInt?_eq_some]
  unfold int64? Decimal
  split
  · rename_i cs heq
    rw [hread, heq]
    simp [hsign (c := '-') (by decide)]
  · rename_i cs heq
    rw [hread, heq]
    simp [hsign (c := '+') (by decide)]
  · rename_i cs hminus hplus
    rw [hread]
    constructor
    · exact .inl
    · rintro (h | ⟨ds, m, heq, -⟩ | ⟨ds, m, heq, -⟩)
      · exact h
      · exact absurd heq (hplus ds)
      · exact absurd heq (hminus ds)

end Text

namespace SortedSet

/-- A member is new if it had no score. -/
theorem insert_fst (z : SortedSet) (member : String) (score : Binary64) :
    (z.insert member score).1 = !z.scores.contains member := by
  rw [ExtTreeMap.contains_eq_isSome_getElem?]
  unfold insert
  split
  · rename_i heq
    exact (congrArg (fun found => !found.isSome) heq).symm
  · rename_i heq
    exact (congrArg (fun found => !found.isSome) heq).symm

theorem remove_fst (z : SortedSet) (member : String) :
    (z.remove member).1 = z.scores.contains member := by
  rw [ExtTreeMap.contains_eq_isSome_getElem?]
  unfold remove
  split
  · rename_i heq
    exact (congrArg Option.isSome heq).symm
  · rename_i heq
    exact (congrArg Option.isSome heq).symm

theorem isEmpty_iff (z : SortedSet) : z.isEmpty = true ↔ z.scores = ∅ := by
  rw [isEmpty, ExtTreeSet.isEmpty_iff, ExtTreeSet.eq_empty_iff_forall_not_mem,
    ExtTreeMap.eq_empty_iff_forall_not_mem]
  constructor
  · intro h member hmem
    obtain ⟨score, hscore⟩ := ExtTreeMap.mem_iff_isSome_getElem?.mp hmem |> Option.isSome_iff_exists.mp
    exact h _ ((z.indexed ⟨member, score⟩).mpr hscore)
  · intro h m hm
    apply h m.member
    rw [ExtTreeMap.mem_iff_isSome_getElem?, (z.indexed m).mp hm]
    rfl

end SortedSet

namespace Edit

/-! ### Text -/

/-- The number a text counts as. -/
def CountsAs (text : String) (n : Int64) : Prop :=
  text = "" ∧ n = 0 ∨ Text.Decimal text.toList n.toInt

theorem integer?_eq_some {text : String} {n : Int64} : integer? text = some n ↔ CountsAs text n := by
  unfold integer? CountsAs
  split
  · rename_i hempty
    subst hempty
    simp [Text.Decimal, Text.Digits, eq_comm]
  · rename_i htext
    rw [Text.int64?_eq_some]
    exact (or_iff_right fun h => htext h.1).symm

/-- A number is added if the text is one and the sum has 64 bits. -/
theorem incr_cases (delta : Int64) (text : String) :
    (∃ n m : Int64, CountsAs text n ∧ m.toInt = n.toInt + delta.toInt ∧
      incr delta text = .ok ⟨m, true, toString m.toInt⟩) ∨
    (¬∃ n m : Int64, CountsAs text n ∧ m.toInt = n.toInt + delta.toInt) ∧
      incr delta text = .error .notInteger := by
  unfold incr
  cases hsum : (integer? text).bind (Text.add64? · delta) with
  | some m =>
    obtain ⟨n, htext, hadd⟩ := Option.bind_eq_some_iff.mp hsum
    exact .inl ⟨n, m, integer?_eq_some.mp htext, Text.int64OfInt?_eq_some.mp hadd, rfl⟩
  | none =>
    refine .inr ⟨?_, rfl⟩
    rintro ⟨n, m, htext, hadd⟩
    have hsome : (integer? text).bind (Text.add64? · delta) = some m :=
      Option.bind_eq_some_iff.mpr
        ⟨n, integer?_eq_some.mpr htext, Text.int64OfInt?_eq_some.mpr hadd⟩
    cases hsum.symm.trans hsome

/-! ### Runs of arguments -/

section Counting
variable {α β : Type} (name : α → String) (has : β → String → Bool) (step : β → α → β)
  (count : β → α → Nat → Nat)

/-- When each argument that makes a difference counts, and makes one only the first time, the count is
that of the names that make one. -/
theorem foldl_count (differs : Bool)
    (hcount : ∀ b a n, count b a n = if has b (name a) = differs then n + 1 else n)
    (hstep : ∀ b a k, has (step b a) k = if name a = k then !differs else has b k)
    (args : List α) (n : Nat) (b : β) :
    args.foldl (fun acc a => (count acc.2 a acc.1, step acc.2 a)) (n, b) =
      (n + ((args.map name).toFinset.filter fun k => has b k = differs).card, args.foldl step b) := by
  induction args generalizing n b with
  | nil => rfl
  | cons a rest ih =>
    rw [List.foldl_cons, ih, hcount, List.map_cons, List.toFinset_cons, Finset.filter_insert]
    -- a name that was taken makes no difference to the arguments behind it
    have hrest : ((rest.map name).toFinset.filter fun k => has (step b a) k = differs) =
        ((rest.map name).toFinset.filter fun k => has b k = differs).erase (name a) := by
      ext k
      rw [Finset.mem_erase, Finset.mem_filter, Finset.mem_filter, hstep]
      by_cases hk : name a = k
      · simp [hk]
      · simp [hk, Ne.symm hk]
    rw [hrest]
    by_cases hname : has b (name a) = differs
    · rw [if_pos hname, if_pos hname, ← Finset.erase_insert_eq_erase, Nat.add_assoc, Nat.add_comm 1,
        Finset.card_erase_add_one (Finset.mem_insert_self ..)]
      rfl
    · rw [if_neg hname, if_neg hname, Finset.erase_eq_of_notMem (by simp [hname])]
      rfl

end Counting

section Maps
variable {β : Type}

/-- The last of several values of a key stays. -/
theorem get_foldl_insert (pairs : List (String × β)) (m : ExtTreeMap String β) (k : String) :
    (pairs.foldl (fun m p => m.insert p.1 p.2) m)[k]? = (pairs.reverse.lookup k).or m[k]? := by
  induction pairs generalizing m with
  | nil => simp
  | cons p rest ih =>
    obtain ⟨l, v⟩ := p
    rw [List.foldl_cons, ih, List.reverse_cons, List.lookup_append, Option.or_assoc, Tree.get_insert]
    congr 1
    by_cases hk : l = k
    · simp [hk]
    · simp [hk, List.lookup_cons, beq_eq_false_iff_ne.mpr (Ne.symm hk)]

theorem get_foldl_erase (keys : List String) (m : ExtTreeMap String β) (k : String) :
    (keys.foldl (fun m k => m.erase k) m)[k]? = if k ∈ keys then none else m[k]? := by
  induction keys generalizing m with
  | nil => simp
  | cons key rest ih =>
    rw [List.foldl_cons, ih, Tree.get_erase]
    by_cases hk : key = k
    · simp [hk]
    · simp [hk, Ne.symm hk]

theorem mem_foldl_insert (members : List String) (s : ExtTreeSet String) (m : String) :
    m ∈ members.foldl (fun s m => s.insert m) s ↔ m ∈ members ∨ m ∈ s := by
  induction members generalizing s with
  | nil => simp
  | cons first rest ih =>
    rw [List.foldl_cons, ih, ExtTreeSet.mem_insert, Std.compare_eq_iff_eq, List.mem_cons,
      eq_comm (a := first)]
    tauto

theorem mem_foldl_erase (members : List String) (s : ExtTreeSet String) (m : String) :
    m ∈ members.foldl (fun s m => s.erase m) s ↔ m ∉ members ∧ m ∈ s := by
  induction members generalizing s with
  | nil => simp
  | cons first rest ih =>
    rw [List.foldl_cons, ih, ExtTreeSet.mem_erase, ne_eq, Std.compare_eq_iff_eq, List.mem_cons,
      not_or, eq_comm (a := first)]
    tauto

/-- Keys that are not there are removed without effect, and others with one. -/
theorem foldl_erase_differs (keys : List String) (m : ExtTreeMap String β) :
    let n := (keys.toFinset.filter fun k => m.contains k = true).card
    (n = 0 → keys.foldl (fun m k => m.erase k) m = m) ∧
      (0 < n → keys.foldl (fun m k => m.erase k) m ≠ m ∧ m ≠ ∅) := by
  constructor
  · intro hnone
    apply ExtTreeMap.ext_getElem?
    intro k
    rw [get_foldl_erase]
    split
    · rename_i hk
      have hout := Finset.filter_eq_empty_iff.mp (Finset.card_eq_zero.mp hnone) (List.mem_toFinset.mpr hk)
      exact (ExtTreeMap.getElem?_eq_none_of_contains_eq_false (eq_false_of_ne_true hout)).symm
    · rfl
  · intro hsome
    obtain ⟨k, hk⟩ := Finset.card_pos.mp hsome
    rw [Finset.mem_filter, List.mem_toFinset] at hk
    constructor
    · intro heq
      have hgone := get_foldl_erase keys m k
      rw [heq, if_pos hk.1] at hgone
      rw [ExtTreeMap.contains_eq_isSome_getElem?, hgone] at hk
      cases hk.2
    · rintro rfl
      simp at hk

theorem foldl_erase_members_differs (members : List String) (s : ExtTreeSet String) :
    let n := (members.toFinset.filter fun m => s.contains m = true).card
    (n = 0 → members.foldl (fun s m => s.erase m) s = s) ∧
      (0 < n → members.foldl (fun s m => s.erase m) s ≠ s ∧ s ≠ ∅) := by
  constructor
  · intro hnone
    apply ExtTreeSet.ext_mem
    intro m
    rw [mem_foldl_erase]
    refine ⟨And.right, fun hm => ⟨fun hmem => ?_, hm⟩⟩
    exact Finset.filter_eq_empty_iff.mp (Finset.card_eq_zero.mp hnone) (List.mem_toFinset.mpr hmem)
      (ExtTreeSet.contains_iff_mem.mpr hm)
  · intro hsome
    obtain ⟨m, hm⟩ := Finset.card_pos.mp hsome
    rw [Finset.mem_filter, List.mem_toFinset, ExtTreeSet.contains_iff_mem] at hm
    constructor
    · intro heq
      have hgone := mem_foldl_erase members s m
      rw [heq] at hgone
      exact (hgone.mp hm.2).1 hm.1
    · rintro rfl
      simp at hm

theorem foldl_insert_members_differs (members : List String) (s : ExtTreeSet String) :
    let n := (members.toFinset.filter fun m => s.contains m = false).card
    (n = 0 → members.foldl (fun s m => s.insert m) s = s) ∧
      (0 < n → members.foldl (fun s m => s.insert m) s ≠ s ∧
        members.foldl (fun s m => s.insert m) s ≠ ∅) := by
  constructor
  · intro hnone
    apply ExtTreeSet.ext_mem
    intro m
    rw [mem_foldl_insert, or_iff_right_iff_imp]
    intro hmem
    have hin := Finset.filter_eq_empty_iff.mp (Finset.card_eq_zero.mp hnone) (List.mem_toFinset.mpr hmem)
    exact ExtTreeSet.contains_iff_mem.mp (eq_true_of_ne_false hin)
  · intro hsome
    obtain ⟨m, hm⟩ := Finset.card_pos.mp hsome
    rw [Finset.mem_filter, List.mem_toFinset] at hm
    have hin := (mem_foldl_insert members s m).mpr (.inl hm.1)
    constructor
    · intro heq
      rw [heq, ← ExtTreeSet.contains_iff_mem, hm.2] at hin
      cases hin
    · intro heq
      rw [heq] at hin
      simp at hin

/-- A map that values are put into is not empty. -/
theorem foldl_insert_ne_empty {pairs : List (String × β)} (hpairs : pairs ≠ [])
    (m : ExtTreeMap String β) : pairs.foldl (fun m p => m.insert p.1 p.2) m ≠ ∅ := by
  intro heq
  obtain ⟨front, ⟨k, v⟩, rfl⟩ := List.eq_nil_or_concat' pairs |>.resolve_left hpairs
  have hget := get_foldl_insert (front ++ [(k, v)]) m k
  rw [heq] at hget
  simp at hget

end Maps

/-! ### Hashes -/

theorem setFields_eq (pairs : List (String × String)) (h : ExtTreeMap String String) :
    setFields pairs h = ⟨((pairs.map (·.1)).toFinset.filter fun f => h.contains f = false).card,
      !pairs.isEmpty, pairs.foldl (fun h p => h.insert p.1 p.2) h⟩ := by
  have hrun := foldl_count Prod.fst
    (fun (h : ExtTreeMap String String) f => h.contains f)
    (fun h (p : String × String) => h.insert p.1 p.2)
    (fun h p n => if h.contains p.1 then n else n + 1) false
    (fun h p n => by cases h.contains p.1 <;> rfl)
    (fun h p f => by rw [ExtTreeMap.contains_insert]; by_cases hf : p.1 = f <;> simp [hf]) pairs 0 h
  rw [Nat.zero_add] at hrun
  exact congrArg (fun r => (⟨r.1, !pairs.isEmpty, r.2⟩ : Edit Nat (ExtTreeMap String String))) hrun

theorem removeFields_eq (fields : List String) (h : ExtTreeMap String String) :
    removeFields fields h =
      let n := (fields.toFinset.filter fun f => h.contains f = true).card
      ⟨n, 0 < n, fields.foldl (fun h f => h.erase f) h⟩ := by
  have hrun := foldl_count id
    (fun (h : ExtTreeMap String String) f => h.contains f)
    (fun h (f : String) => h.erase f)
    (fun h f n => if h.contains f then n + 1 else n) true (fun _ _ _ => rfl)
    (fun h f k => by rw [ExtTreeMap.contains_erase]; by_cases hf : f = k <;> simp [hf]) fields 0 h
  rw [Nat.zero_add, List.map_id] at hrun
  exact congrArg (fun r => (⟨r.1, 0 < r.1, r.2⟩ : Edit Nat (ExtTreeMap String String))) hrun

/-! ### Sets -/

theorem addMembers_eq (members : List String) (s : ExtTreeSet String) :
    addMembers members s =
      let n := (members.toFinset.filter fun m => s.contains m = false).card
      ⟨n, 0 < n, members.foldl (fun s m => s.insert m) s⟩ := by
  have hrun := foldl_count id (fun (s : ExtTreeSet String) m => s.contains m)
    (fun s (m : String) => s.insert m)
    (fun s m n => if s.contains m then n else n + 1) false
    (fun s m n => by by_cases hm : s.contains m = true <;> simp [hm])
    (fun s m k => by rw [ExtTreeSet.contains_insert]; by_cases hm : m = k <;> simp [hm]) members 0 s
  rw [Nat.zero_add, List.map_id] at hrun
  exact congrArg (fun r => (⟨r.1, 0 < r.1, r.2⟩ : Edit Nat (ExtTreeSet String))) hrun

theorem removeMembers_eq (members : List String) (s : ExtTreeSet String) :
    removeMembers members s =
      let n := (members.toFinset.filter fun m => s.contains m = true).card
      ⟨n, 0 < n, members.foldl (fun s m => s.erase m) s⟩ := by
  have hrun := foldl_count id (fun (s : ExtTreeSet String) m => s.contains m)
    (fun s (m : String) => s.erase m)
    (fun s m n => if s.contains m then n + 1 else n) true (fun _ _ _ => rfl)
    (fun s m k => by rw [ExtTreeSet.contains_erase]; by_cases hm : m = k <;> simp [hm]) members 0 s
  rw [Nat.zero_add, List.map_id] at hrun
  exact congrArg (fun r => (⟨r.1, 0 < r.1, r.2⟩ : Edit Nat (ExtTreeSet String))) hrun

/-! ### Sorted sets -/

theorem addScored_eq (members : List (Binary64 × String)) (z : SortedSet) :
    addScored members z =
      ⟨((members.map (·.2)).toFinset.filter fun m => z.scores.contains m = false).card,
        !members.isEmpty, members.foldl (fun z p => (z.insert p.2 p.1).2) z⟩ := by
  have hrun := foldl_count Prod.snd (fun (z : SortedSet) m => z.scores.contains m)
    (fun z (p : Binary64 × String) => (z.insert p.2 p.1).2)
    (fun z p n => if (z.insert p.2 p.1).1 then n + 1 else n) false
    (fun z p n => by rw [SortedSet.insert_fst]; cases z.scores.contains p.2 <;> rfl)
    (fun z p m => by
      rw [SortedSet.insert_scores, ExtTreeMap.contains_insert]
      by_cases hm : p.2 = m <;> simp [hm]) members 0 z
  rw [Nat.zero_add] at hrun
  exact congrArg (fun r => (⟨r.1, !members.isEmpty, r.2⟩ : Edit Nat SortedSet)) hrun

theorem removeScored_eq (members : List String) (z : SortedSet) :
    removeScored members z =
      let n := (members.toFinset.filter fun m => z.scores.contains m = true).card
      ⟨n, 0 < n, members.foldl (fun z m => (z.remove m).2) z⟩ := by
  have hrun := foldl_count id (fun (z : SortedSet) m => z.scores.contains m)
    (fun z (m : String) => (z.remove m).2)
    (fun z m n => if (z.remove m).1 then n + 1 else n) true
    (fun z m n => by rw [SortedSet.remove_fst]; rfl)
    (fun z m k => by
      rw [SortedSet.remove_scores, ExtTreeMap.contains_erase]
      by_cases hm : m = k <;> simp [hm]) members 0 z
  rw [Nat.zero_add, List.map_id] at hrun
  exact congrArg (fun r => (⟨r.1, 0 < r.1, r.2⟩ : Edit Nat SortedSet)) hrun

theorem scores_foldl_insert (members : List (Binary64 × String)) (z : SortedSet) :
    (members.foldl (fun z p => (z.insert p.2 p.1).2) z).scores =
      (members.map Prod.swap).foldl (fun m p => m.insert p.1 p.2) z.scores := by
  induction members generalizing z with
  | nil => rfl
  | cons p rest ih => rw [List.foldl_cons, ih, SortedSet.insert_scores]; rfl

theorem scores_foldl_remove (members : List String) (z : SortedSet) :
    (members.foldl (fun z m => (z.remove m).2) z).scores =
      members.foldl (fun m k => m.erase k) z.scores := by
  induction members generalizing z with
  | nil => rfl
  | cons m rest ih => rw [List.foldl_cons, ih, SortedSet.remove_scores]; rfl

end Edit
end TierCache
