import TierCache.Locks
import TierCache.Proofs.Tree
import TierCache.RowId

/-!
One lock for each identifier. As long as a handle is held, its lock stays registered, and every further
handle of the identifier is of that lock; a lock goes only when no handle of it is held.
-/
namespace TierCache
open Std

namespace LockRegistry

variable {κ : Type} [Ord κ] [TransOrd κ]

/-- A registry and the handles of its locks that are held. -/
structure Usage (κ : Type) [Ord κ] where
  registry : LockRegistry κ
  held : List (LockHandle κ)

inductive Act (κ : Type)
  /-- A handle is taken and held. -/
  | take (id : κ)
  /-- A handle that is held is given back. -/
  | drop (handle : LockHandle κ)
  | prune (pred : κ → Bool)
  | removeIfUnused (id : κ)

namespace Usage

/-- No lock has been made yet. -/
def fresh : Usage κ := ⟨empty, []⟩

def perform [DecidableEq κ] (u : Usage κ) : Act κ → Usage κ
  | .take id => ⟨(u.registry.acquire id).2, (u.registry.acquire id).1 :: u.held⟩
  | .drop handle =>
    if handle ∈ u.held then ⟨u.registry.release handle, u.held.erase handle⟩ else u
  | .prune pred => { u with registry := u.registry.prune pred }
  | .removeIfUnused id => { u with registry := (u.registry.removeIfUnused id).2 }

/-- What a run of acts leaves. -/
def after [DecidableEq κ] (u : Usage κ) (acts : List (Act κ)) : Usage κ := acts.foldl perform u

end Usage

section Calls

variable (r : LockRegistry κ) {id : κ} {lock : Lock}

theorem acquire_of_some (h : r.locks[id]? = some lock) :
    r.acquire id =
      (⟨id, lock.number⟩, { r with locks := r.locks.insert id ⟨lock.number, lock.handles + 1⟩ }) := by
  simp only [acquire, h]

theorem acquire_of_none (h : r.locks[id]? = none) :
    r.acquire id = (⟨id, r.next⟩, ⟨r.locks.insert id ⟨r.next, 1⟩, r.next + 1⟩) := by
  simp only [acquire, h]

theorem release_of_some {handle : LockHandle κ} (h : r.locks[handle.id]? = some lock)
    (number : lock.number = handle.number) :
    r.release handle =
      { r with locks := r.locks.insert handle.id ⟨lock.number, lock.handles - 1⟩ } := by
  simp only [release, h, number, if_true]

theorem acquire_id (id : κ) : (r.acquire id).1.id = id := by
  unfold acquire
  split <;> rfl

theorem next_removeIfUnused (id : κ) : (r.removeIfUnused id).2.next = r.next := by
  unfold removeIfUnused
  split
  · split <;> rfl
  · rfl

/-- The lock is there and no handle keeps it, as far as the registry knows. -/
theorem removeIfUnused_fst (id : κ) :
    (r.removeIfUnused id).1 = true ↔ ∃ lock, r.locks[id]? = some lock ∧ lock.handles = 0 := by
  cases h : r.locks[id]? with
  | none => simp [removeIfUnused, h]
  | some lock =>
    by_cases hunused : lock.handles = 0
    · simp [removeIfUnused, h, hunused]
    · simp [removeIfUnused, h, hunused]

variable [LawfulEqOrd κ]

theorem get_prune (pred : κ → Bool) (id : κ) (lock : Lock) :
    (r.prune pred).locks[id]? = some lock ↔
      r.locks[id]? = some lock ∧ (pred id = true → lock.handles ≠ 0) := by
  simp only [prune, ExtTreeMap.getElem?_filter', Option.filter_eq_some_iff, Bool.not_eq_true',
    Bool.and_eq_false_imp, beq_eq_false_iff_ne]

theorem get_removeIfUnused [DecidableEq κ] (id other : κ) (lock : Lock) :
    (r.removeIfUnused id).2.locks[other]? = some lock ↔
      r.locks[other]? = some lock ∧ (id = other → lock.handles ≠ 0) := by
  cases h : r.locks[id]? with
  | none =>
    simp only [removeIfUnused, h, iff_self_and]
    rintro hother rfl
    cases h.symm.trans hother
  | some found =>
    by_cases hunused : found.handles = 0
    · simp only [removeIfUnused, h, hunused, if_true, Tree.get_erase]
      split
      · rename_i hid
        subst hid
        rw [h]
        refine iff_of_false nofun ?_
        rintro ⟨⟨⟩, hused⟩
        exact hused rfl hunused
      · rename_i hid
        simp [hid]
    · simp only [removeIfUnused, h, hunused, if_false, iff_self_and]
      rintro hother rfl
      cases h.symm.trans hother
      exact hunused

end Calls

/-- A registry agrees with the handles that are held: each is of the lock that is registered for its
identifier, locks count their handles, and no two have one number. -/
structure Tracks [DecidableEq κ] (r : LockRegistry κ) (held : List (LockHandle κ)) : Prop where
  registered {handle : LockHandle κ} (h : handle ∈ held) :
    ∃ lock, r.locks[handle.id]? = some lock ∧ lock.number = handle.number
  counted {id : κ} {lock : Lock} (h : r.locks[id]? = some lock) :
    lock.handles = held.countP (·.id = id)
  distinct {id other : κ} {lock found : Lock} (h : r.locks[id]? = some lock)
    (h' : r.locks[other]? = some found) (number : lock.number = found.number) : id = other
  past {id : κ} {lock : Lock} (h : r.locks[id]? = some lock) : lock.number < r.next

namespace Tracks

variable [DecidableEq κ] {r : LockRegistry κ} {held : List (LockHandle κ)}

theorem start : Tracks (empty : LockRegistry κ) [] := by
  refine ⟨?_, ?_, ?_, ?_⟩
  · intro handle h
    cases h
  · intro id lock h
    simp [empty] at h
  · intro id other lock found h
    simp [empty] at h
  · intro id lock h
    simp [empty] at h

/-- A lock is in use exactly if a handle of its identifier is held. -/
theorem used_iff (h : Tracks r held) {id : κ} {lock : Lock} (hlock : r.locks[id]? = some lock) :
    lock.handles ≠ 0 ↔ ∃ handle ∈ held, handle.id = id := by
  rw [h.counted hlock, ← Nat.pos_iff_ne_zero, List.countP_pos_iff]
  simp only [decide_eq_true_eq]

theorem unused_iff (h : Tracks r held) {id : κ} {lock : Lock} (hlock : r.locks[id]? = some lock) :
    lock.handles = 0 ↔ ∀ handle ∈ held, handle.id ≠ id := by
  rw [h.counted hlock, List.countP_eq_zero]
  simp only [decide_eq_true_eq, ne_eq]

/-- The next handle of an identifier is of the lock of those that are held. -/
theorem acquire_held (h : Tracks r held) {handle : LockHandle κ} (hin : handle ∈ held) :
    (r.acquire handle.id).1 = handle := by
  obtain ⟨lock, hlock, hnumber⟩ := h.registered hin
  rw [r.acquire_of_some hlock, hnumber]

/-- Handles are of one lock exactly if they are for one identifier. -/
theorem number_eq_iff (h : Tracks r held) {one other : LockHandle κ} (hone : one ∈ held)
    (hother : other ∈ held) : one.number = other.number ↔ one.id = other.id := by
  obtain ⟨lock, hlock, hnumber⟩ := h.registered hone
  obtain ⟨found, hfound, hnumber'⟩ := h.registered hother
  constructor
  · intro hsame
    exact h.distinct hlock hfound (hnumber.trans (hsame.trans hnumber'.symm))
  · intro hid
    rw [hid, hfound] at hlock
    cases hlock
    exact hnumber.symm.trans hnumber'

/-- Handles may be held in any order. -/
theorem perm (h : Tracks r held) {others : List (LockHandle κ)} (same : held.Perm others) :
    Tracks r others := by
  refine ⟨fun hin => h.registered (same.mem_iff.mpr hin), fun hlock => ?_, h.distinct, h.past⟩
  rw [← same.countP_eq]
  exact h.counted hlock

/-- Locks that are not in use may go. -/
theorem fewer (h : Tracks r held) {r' : LockRegistry κ} (next : r'.next = r.next)
    (among : ∀ (id : κ) (lock : Lock), r'.locks[id]? = some lock → r.locks[id]? = some lock)
    (spared : ∀ (id : κ) (lock : Lock), r.locks[id]? = some lock → lock.handles ≠ 0 →
      r'.locks[id]? = some lock) : Tracks r' held := by
  refine ⟨?_, ?_, ?_, ?_⟩
  · intro handle hin
    obtain ⟨lock, hlock, hnumber⟩ := h.registered hin
    have hused : lock.handles ≠ 0 := (h.used_iff hlock).mpr ⟨handle, hin, rfl⟩
    exact ⟨lock, spared _ _ hlock hused, hnumber⟩
  · intro id lock hlock
    exact h.counted (among id lock hlock)
  · intro id other lock found hlock hfound
    exact h.distinct (among id lock hlock) (among other found hfound)
  · intro id lock hlock
    rw [next]
    exact h.past (among id lock hlock)

variable [LawfulEqOrd κ]

/-- The count of a lock that is registered is put right. -/
theorem recount (h : Tracks r held) {id : κ} {lock : Lock} (hlock : r.locks[id]? = some lock)
    {handles : Nat} {now : List (LockHandle κ)}
    (members : ∀ handle ∈ now, handle ∈ held ∨ handle = ⟨id, lock.number⟩)
    (counted : handles = now.countP (·.id = id))
    (others : ∀ other, id ≠ other → now.countP (·.id = other) = held.countP (·.id = other)) :
    Tracks { r with locks := r.locks.insert id ⟨lock.number, handles⟩ } now := by
  -- a lock that is there now was there before under its number
  have before {other : κ} {found : Lock}
      (hfound : (r.locks.insert id ⟨lock.number, handles⟩)[other]? = some found) :
      ∃ old, r.locks[other]? = some old ∧ old.number = found.number := by
    rw [Tree.get_insert] at hfound
    split at hfound
    · rename_i hid
      cases hfound
      exact ⟨lock, hid ▸ hlock, rfl⟩
    · exact ⟨found, hfound, rfl⟩
  refine ⟨?_, ?_, ?_, ?_⟩
  · intro handle hin
    simp only [Tree.get_insert]
    split
    · rename_i hid
      refine ⟨_, rfl, ?_⟩
      obtain hheld | rfl := members handle hin
      · obtain ⟨old, hold, hnumber⟩ := h.registered hheld
        rw [← hid, hlock] at hold
        cases hold
        exact hnumber
      · rfl
    · rename_i hid
      obtain hheld | rfl := members handle hin
      · exact h.registered hheld
      · exact absurd rfl hid
  · intro other found hfound
    simp only [Tree.get_insert] at hfound
    split at hfound
    · rename_i hid
      subst hid
      cases hfound
      exact counted
    · rename_i hid
      rw [others other hid]
      exact h.counted hfound
  · intro one other found found' hfound hfound' hnumber
    obtain ⟨old, hold, holdNumber⟩ := before hfound
    obtain ⟨old', hold', holdNumber'⟩ := before hfound'
    exact h.distinct hold hold' (holdNumber.trans (hnumber.trans holdNumber'.symm))
  · intro other found hfound
    obtain ⟨old, hold, hnumber⟩ := before hfound
    exact hnumber ▸ h.past hold

/-- A new lock has a number of its own. -/
theorem create (h : Tracks r held) {id : κ} (hnone : r.locks[id]? = none) :
    Tracks ⟨r.locks.insert id ⟨r.next, 1⟩, r.next + 1⟩ (⟨id, r.next⟩ :: held) := by
  have unheld : ∀ handle ∈ held, handle.id ≠ id := by
    rintro handle hin rfl
    obtain ⟨lock, hlock, -⟩ := h.registered hin
    cases hnone.symm.trans hlock
  refine ⟨?_, ?_, ?_, ?_⟩
  · intro handle hin
    simp only [Tree.get_insert]
    obtain rfl | hheld := List.mem_cons.mp hin
    · exact ⟨_, if_pos rfl, rfl⟩
    · rw [if_neg (unheld handle hheld).symm]
      exact h.registered hheld
  · intro other found hfound
    simp only [Tree.get_insert] at hfound
    split at hfound
    · rename_i hid
      subst hid
      cases hfound
      have hzero : held.countP (·.id = id) = 0 := by
        simpa only [List.countP_eq_zero, decide_eq_true_eq] using unheld
      rw [List.countP_cons_of_pos (by simp), hzero]
    · rename_i hid
      rw [List.countP_cons_of_neg (by simpa using hid)]
      exact h.counted hfound
  · intro one other found found' hfound hfound' hnumber
    simp only [Tree.get_insert] at hfound hfound'
    split at hfound
    · rename_i hone
      cases hfound
      split at hfound'
      · rename_i hother
        exact hone.symm.trans hother
      · have := h.past hfound'
        simp only at hnumber
        omega
    · split at hfound'
      · cases hfound'
        have := h.past hfound
        simp only at hnumber
        omega
      · exact h.distinct hfound hfound' hnumber
  · intro other found hfound
    simp only [Tree.get_insert] at hfound
    split at hfound
    · cases hfound
      exact Nat.lt_succ_self _
    · exact Nat.lt_succ_of_lt (h.past hfound)

theorem acquire (h : Tracks r held) (id : κ) :
    Tracks (r.acquire id).2 ((r.acquire id).1 :: held) := by
  cases hid : r.locks[id]? with
  | none =>
    rw [r.acquire_of_none hid]
    exact h.create hid
  | some lock =>
    rw [r.acquire_of_some hid]
    apply h.recount hid
    · intro handle hin
      exact (List.mem_cons.mp hin).symm
    · rw [List.countP_cons_of_pos (by simp), h.counted hid]
    · intro other hother
      rw [List.countP_cons_of_neg (by simpa using hother)]

/-- A handle that is given back is one that the registry has counted. -/
theorem release {handle : LockHandle κ} (h : Tracks r (handle :: held)) :
    Tracks (r.release handle) held := by
  obtain ⟨lock, hlock, hnumber⟩ := h.registered (.head held)
  have hcount := h.counted hlock
  rw [List.countP_cons_of_pos (by simp)] at hcount
  rw [r.release_of_some hlock hnumber]
  apply h.recount hlock
  · intro other hin
    exact .inl (.tail handle hin)
  · omega
  · intro other hother
    rw [List.countP_cons_of_neg (by simpa using hother)]

theorem prune (h : Tracks r held) (pred : κ → Bool) : Tracks (r.prune pred) held := by
  refine h.fewer rfl ?_ ?_
  · intro id lock hlock
    exact ((r.get_prune pred id lock).mp hlock).1
  · intro id lock hlock hused
    exact (r.get_prune pred id lock).mpr ⟨hlock, fun _ => hused⟩

theorem removeIfUnused (h : Tracks r held) (id : κ) : Tracks (r.removeIfUnused id).2 held := by
  refine h.fewer (r.next_removeIfUnused id) ?_ ?_
  · intro other lock hlock
    exact ((r.get_removeIfUnused id other lock).mp hlock).1
  · intro other lock hlock hused
    exact (r.get_removeIfUnused id other lock).mpr ⟨hlock, fun _ => hused⟩

end Tracks

namespace Usage

variable [DecidableEq κ] [LawfulEqOrd κ]

theorem tracks_perform {u : Usage κ} (h : Tracks u.registry u.held) (act : Act κ) :
    Tracks (u.perform act).registry (u.perform act).held := by
  cases act with
  | take id => exact h.acquire id
  | drop handle =>
    rw [perform]
    split
    · rename_i hin
      exact (h.perm (List.perm_cons_erase hin)).release
    · exact h
  | prune pred => exact h.prune pred
  | removeIfUnused id => exact h.removeIfUnused id

theorem tracks_after {u : Usage κ} (h : Tracks u.registry u.held) (acts : List (Act κ)) :
    Tracks (u.after acts).registry (u.after acts).held := by
  induction acts generalizing u with
  | nil => exact h
  | cons act rest ih => exact ih (tracks_perform h act)

/-- Whatever handles are taken and given back and whatever is dropped in between: the next handle of an
identifier is of the same lock as those that are held for it, and of another one than those held for other
identifiers; two held handles are of one lock exactly if they are for one identifier. A pruning drops the
locks of the identifiers that it is about, but for those of which a handle is held; and so does the removal
of one identifier's lock, which tells whether there was one to drop. -/
theorem one_lock (acts : List (Act κ)) :
    let u := (fresh : Usage κ).after acts
    (∀ handle ∈ u.held, (u.registry.acquire handle.id).1 = handle) ∧
    (∀ id, ∀ handle ∈ u.held, (u.registry.acquire id).1.number = handle.number ↔ id = handle.id) ∧
    (∀ one ∈ u.held, ∀ other ∈ u.held, one.number = other.number ↔ one.id = other.id) ∧
    (∀ pred id lock, (u.registry.prune pred).locks[id]? = some lock ↔
      u.registry.locks[id]? = some lock ∧ (pred id = true → ∃ handle ∈ u.held, handle.id = id)) ∧
    (∀ id other lock, (u.registry.removeIfUnused id).2.locks[other]? = some lock ↔
      u.registry.locks[other]? = some lock ∧
        (id = other → ∃ handle ∈ u.held, handle.id = other)) ∧
    ∀ id, (u.registry.removeIfUnused id).1 = true ↔
      (u.registry.locks[id]?).isSome = true ∧ ∀ handle ∈ u.held, handle.id ≠ id := by
  intro u
  have h : Tracks u.registry u.held := tracks_after Tracks.start acts
  refine ⟨fun handle hin => h.acquire_held hin, ?_,
    fun one hone other hother => h.number_eq_iff hone hother, ?_, ?_, ?_⟩
  · intro id handle hin
    -- once taken, the next handle is itself one of those that are held
    have hnext := (h.acquire id).number_eq_iff (.head _) (.tail _ hin)
    rwa [acquire_id] at hnext
  · intro pred id lock
    rw [u.registry.get_prune]
    refine and_congr_right fun hlock => ?_
    rw [h.used_iff hlock]
  · intro id other lock
    rw [u.registry.get_removeIfUnused]
    refine and_congr_right fun hlock => ?_
    rw [h.used_iff hlock]
  · intro id
    rw [u.registry.removeIfUnused_fst, Option.isSome_iff_exists, exists_and_right.symm]
    exact exists_congr fun lock => and_congr_right fun hlock => h.unused_iff hlock

/-- One of two handles of a key is given back, and the only one of another key: a pruning of their region
takes away the lock of the other key only. -/
theorem one_lock_pruned :
    let one : RowId := ⟨"r", "a"⟩
    let other : RowId := ⟨"r", "b"⟩
    let u := fresh.after [.take one, .take other, .take one, .drop ⟨one, 0⟩, .drop ⟨other, 1⟩]
    u.held = [⟨one, 0⟩] ∧ u.registry.locks[other]? = some ⟨1, 0⟩ ∧
      (u.registry.acquire one).1 = ⟨one, 0⟩ ∧
      (u.registry.prune (·.region = "r")).locks[one]? = some ⟨0, 1⟩ ∧
      (u.registry.prune (·.region = "r")).locks[other]? = none := by
  intro one other u
  have hheld : u.held = [⟨one, 0⟩] := by decide +kernel
  have hone : u.registry.locks[one]? = some ⟨0, 1⟩ := by decide +kernel
  have hother : u.registry.locks[other]? = some ⟨1, 0⟩ := by decide +kernel
  obtain ⟨hnext, -, -, hprune, -, -⟩ := one_lock
    [.take one, .take other, .take one, .drop ⟨one, 0⟩, .drop ⟨other, 1⟩]
  refine ⟨hheld, hother, hnext ⟨one, 0⟩ ?_, ?_, ?_⟩
  · rw [hheld]
    exact .head _
  · refine (hprune _ one _).mpr ⟨hone, fun _ => ⟨⟨one, 0⟩, ?_, rfl⟩⟩
    rw [hheld]
    exact .head _
  · rw [Option.eq_none_iff_forall_ne_some]
    intro lock hlock
    obtain ⟨handle, hin, hid⟩ := ((hprune _ other lock).mp hlock).2 (by decide)
    rw [hheld] at hin
    cases List.mem_singleton.mp hin
    exact absurd hid (by decide)

end Usage
end LockRegistry
end TierCache
