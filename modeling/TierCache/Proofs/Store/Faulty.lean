import TierCache.Proofs.Store.Reliable
import TierCache.Store.Faulty

/-!
Stores some of whose calls fail. A call fails and leaves the rows as they were, or is answered from the
rows as by the store behind; which of the two, nobody knows before.
-/
namespace TierCache

namespace Faulty

variable {σ : Type} {s s' s'' : Faulty σ} {call : StoreCall}

/-- The same store, maybe after some calls. -/
structure Later (s s' : Faulty σ) : Prop where
  fails : s'.fails = s.fails
  calls : s.calls ≤ s'.calls

/-- No call from the one state of a store to the other was one to fail if it was of this kind. -/
def Answered (s s' : Faulty σ) (call : StoreCall) : Prop :=
  ∀ n, s.calls ≤ n → n < s'.calls → s.fails n call = false

theorem Later.refl (s : Faulty σ) : s.Later s := ⟨rfl, Nat.le_refl _⟩

theorem Later.trans (h : s.Later s') (h' : s'.Later s'') : s.Later s'' :=
  ⟨h'.fails.trans h.fails, Nat.le_trans h.calls h'.calls⟩

theorem Answered.first (h : s.Answered s'' call) (later : s'.Later s'') : s.Answered s' call :=
  fun n hs hs' => h n hs (Nat.lt_of_lt_of_le hs' later.calls)

theorem Answered.rest (h : s.Answered s'' call) (later : s.Later s') : s'.Answered s'' call := by
  intro n hs hs'
  rw [later.fails]
  exact h n (Nat.le_trans later.calls hs) hs'

/-- How a call ends: with its answer and the rows that it makes of those before, or with an error and
the rows as before. -/
def Ends {α : Type} (stands : σ → Table → Prop) (s : Faulty σ) (call : StoreCall) (before : Table)
    (answer : α) (after : Table) (outcome : Except CacheError α × Faulty σ) : Prop :=
  ∃ s', s.Later s' ∧
    (outcome = (.ok answer, s') ∧ stands s'.inner after ∨
      (∃ err, outcome = (.error err, s')) ∧ stands s'.inner before ∧ ¬s.Answered s' call)

section Calls
variable {α : Type} {stands : σ → Table → Prop} {t t' : Table}

theorem attempt_ends {run : σ → Except CacheError α × σ} {answer : α} {inner : σ}
    (h : stands s.inner t) (hrun : run s.inner = (.ok answer, inner)) (hinner : stands inner t') :
    Ends stands s call t answer t' (s.attempt call run) := by
  cases hfails : s.fails s.calls call with
  | true =>
    refine ⟨{ s with calls := s.calls + 1 }, ⟨rfl, Nat.le_succ _⟩, .inr ⟨⟨injected call, ?_⟩, h, ?_⟩⟩
    · simp only [attempt, hfails, if_true]
    · intro answered
      exact absurd (answered s.calls (Nat.le_refl _) (Nat.lt_succ_self _)) (by simp [hfails])
  | false =>
    refine ⟨{ s with calls := s.calls + 1, inner }, ⟨rfl, Nat.le_succ _⟩, .inl ⟨?_, hinner⟩⟩
    simp only [attempt, hfails, Bool.false_eq_true, if_false, hrun]

variable [Store σ] (reliable : Reliable stands) (h : stands s.inner t)
include reliable h

theorem save (row : Entry) : Ends stands s .save t () (t.save row) (Store.save row s) := by
  obtain ⟨inner, hrun, hinner⟩ := reliable.save h row
  exact attempt_ends h hrun hinner

theorem load (region key : String) :
    Ends stands s .load t (t.get? region key) t (Store.load region key s) := by
  obtain ⟨inner, hrun, hinner⟩ := reliable.load h region key
  exact attempt_ends h hrun hinner

theorem loadAll : ∃ rows : List Entry, rows.Perm t.entries ∧
    Ends stands s .loadAll t rows t (Store.loadAll s) := by
  obtain ⟨rows, inner, hrun, hperm, hinner⟩ := reliable.loadAll h
  exact ⟨rows, hperm, attempt_ends h hrun hinner⟩

theorem delete (region key : String) :
    Ends stands s .delete t () (t.erase region key) (Store.delete region key s) := by
  obtain ⟨inner, hrun, hinner⟩ := reliable.delete h region key
  exact attempt_ends h hrun hinner

theorem deleteRegion (region : String) :
    Ends stands s .deleteRegion t () (t.eraseRegion region) (Store.deleteRegion region s) := by
  obtain ⟨inner, hrun, hinner⟩ := reliable.deleteRegion h region
  exact attempt_ends h hrun hinner

theorem updateExpiry (region key : String) (expiresAt : Option Nat) :
    Ends stands s .updateExpiry t () (t.setExpiry region key expiresAt)
      (Store.updateExpiry region key expiresAt s) := by
  obtain ⟨inner, hrun, hinner⟩ := reliable.updateExpiry h region key expiresAt
  exact attempt_ends h hrun hinner

theorem deleteExpired (now : Nat) :
    Ends stands s .deleteExpired t (t.rows.size - (t.eraseExpired now).rows.size)
      (t.eraseExpired now) (Store.deleteExpired now s) := by
  obtain ⟨inner, hrun, hinner⟩ := reliable.deleteExpired h now
  exact attempt_ends h hrun hinner

theorem count (region : String) :
    Ends stands s .count t (t.regionRows region).length t (Store.count region s) := by
  obtain ⟨inner, hrun, hinner⟩ := reliable.count h region
  exact attempt_ends h hrun hinner

theorem regions : ∃ names : List String,
    Ends stands s .regions t names t (Store.regions s) := by
  obtain ⟨names, inner, hrun, -, hinner⟩ := reliable.regions h
  exact ⟨names, attempt_ends h hrun hinner⟩

end Calls
end Faulty
end TierCache
