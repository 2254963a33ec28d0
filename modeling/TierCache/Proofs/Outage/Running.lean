import Mathlib
import TierCache.Proofs.Outage.Performing

/-!
Runs of operations while the store may fail, and what they cannot do to a key that is not expired: a
sweep does not remove it and an operation on its contents does not take them for empty, as long as it
is in memory or the loads are answered.
-/
namespace TierCache
open Std

namespace Engine

variable {σ α : Type} [Store σ] {stands : σ → Table → Prop}

/-- After any run, over a store that fails whenever it likes, a sweep touches nothing of a key whose
entry in memory is not expired. If the loads of the sweep were answered, it touches nothing of a key
whose row is not expired either, and a key that is no longer known had a row, and an expired one. -/
theorem sweep_spares (reliable : Reliable stands) {store : Faulty σ} {t₀ : Table}
    (h₀ : stands store.inner t₀) (named : t₀.Named) (capacity : Nat) (defaultRegion : String)
    (calls : List Call) (now : Nat) :
    let e := (Engine.fresh store capacity defaultRegion).performAll calls
    let e' := (e.sweep now).2
    ∃ t t', stands e.store.inner t ∧ stands e'.store.inner t' ∧ ∀ region key,
      (∀ entry, (e.regionD region).memory[key]? = some entry → entry.isExpired now = false →
        Untouched e t e' t' region key) ∧
      (e.store.Answered e'.store .load →
        (∀ row, t.get? region key = some row → row.isExpired now = false →
          Untouched e t e' t' region key) ∧
        ((e.regionD region).known.contains key = true →
          (e'.regionD region).known.contains key = false →
          ∃ row, t.get? region key = some row ∧ row.isExpired now = true)) := by
  intro e e'
  obtain ⟨t, h⟩ := (Backed.fresh h₀ named capacity defaultRegion).performAll reliable calls
  obtain ⟨t', h', hswept⟩ := h.sweep reliable now
  refine ⟨t, t', h.stored, h'.stored, ?_⟩
  intro region key
  refine ⟨fun entry hm hlive => hswept.spared (.inl ⟨entry, hm, hlive⟩), ?_⟩
  intro answered
  have hspared (row : Entry) (hrow : t.get? region key = some row)
      (hlive : row.isExpired now = false) : Untouched e t e' t' region key :=
    hswept.spared (.inr ⟨answered, row, hrow, hlive⟩)
  refine ⟨hspared, ?_⟩
  intro hknown hgone
  obtain ⟨row, hrow⟩ := Option.isSome_iff_exists.mp (h.known hknown)
  refine ⟨row, hrow, ?_⟩
  by_contra hlive
  have hsame := (hspared row hrow (eq_false_of_ne_true hlive)).known
  rw [hgone, hknown] at hsame
  cases hsame

/-- A key that expires at 10 survives the sweep at 7, though every delete fails. -/
theorem sweep_spares_unexpired :
    let store : Faulty Table := ⟨.empty, fun _ call => call = .delete, 0⟩
    store.inner = Table.empty ∧ Table.empty.Named ∧
    (((Engine.fresh store 0 "main").performAll
      [⟨5, _, .setValue "main" "k" (.string "v") (some 10)⟩]).sweep 7).2.store.inner.get? "main" "k" =
        some ⟨"main", "k", .string "v", 5, 5, some 10, false⟩ := by
  intro store
  have hempty : Table.empty = store.inner := rfl
  have named : Table.empty.Named := Table.named_empty
  refine ⟨rfl, named, ?_⟩
  obtain ⟨t, t', rfl, rfl, hspared⟩ := sweep_spares Table.reliable hempty.symm named 0 "main"
    [⟨5, _, .setValue "main" "k" (.string "v") (some 10)⟩] 7
  have hrow : ((Engine.fresh store 0 "main").performAll
      [⟨5, _, .setValue "main" "k" (.string "v") (some 10)⟩]).store.inner.get? "main" "k" =
        some ⟨"main", "k", .string "v", 5, 5, some 10, false⟩ := by cbv
  have hanswered := (hspared "main" "k").2 fun n _ _ => by cbv
  rw [(hanswered.1 _ hrow rfl).row, hrow]

/-- A sweep that cannot load removes a key without expiry, and its row. -/
theorem sweep_unread :
    let e := (Engine.fresh (Faulty.mk Table.empty (fun _ call => call = .load) 0) 0 "main").performAll
      [⟨5, _, .setValue "main" "k" (.string "v") none⟩]
    (e.regionD "main").known.contains "k" = true ∧
      e.store.inner.get? "main" "k" = some ⟨"main", "k", .string "v", 5, 5, none, false⟩ ∧
      ((e.sweep 6).2.regionD "main").known.contains "k" = false ∧
      (e.sweep 6).2.store.inner.get? "main" "k" = none := by
  cbv

/-- After any run, over a store that fails whenever it likes, an operation on the contents of a key
whose row is not expired is refused and leaves the row as it was, or does to the row's value what it
does to a value: if the key is in memory or the loads of the operation were answered, and if the
deletes were in case it leaves an empty container. -/
theorem typed_carried_out (reliable : Reliable stands) {store : Faulty σ} {t₀ : Table}
    (h₀ : stands store.inner t₀) (named : t₀.Named) (capacity : Nat) (defaultRegion : String)
    (calls : List Call) (now : Nat) (region key : String) (op : Typed α) :
    let e := (Engine.fresh store capacity defaultRegion).performAll calls
    let outcome := e.performTyped now region key op
    ∃ t t', stands e.store.inner t ∧ stands outcome.2.store.inner t' ∧ ∀ row,
      t.get? region key = some row → row.isExpired now = false →
      (e.isResident region key = true ∨ e.store.Answered outcome.2.store .load) →
      (∀ a, op.plan.onValue row.value = .ok (a, none) → e.store.Answered outcome.2.store .delete) →
      Typed.CarriedOut row (op.plan.onValue row.value) outcome.1 (t'.get? region key) := by
  intro e outcome
  obtain ⟨t, h⟩ := (Backed.fresh h₀ named capacity defaultRegion).performAll reliable calls
  obtain ⟨reply, e', t', hrun, -, h', hcarried⟩ := h.runPlan reliable now region key op.plan
  have hend : outcome = (reply, e') := (op.performTyped_eq e now region key).trans hrun
  rw [hend]
  refine ⟨t, t', h.stored, h'.stored, ?_⟩
  intro row hrow hlive hreadable answered
  refine hcarried row hrow ?_ answered
  obtain hresident | hloads := hreadable
  · have hin := ExtTreeMap.mem_iff_contains.mpr hresident
    obtain ⟨entry, hm⟩ := Option.isSome_iff_exists.mp (ExtTreeMap.isSome_getElem?_iff_mem.mpr hin)
    refine .inl ⟨entry, hm, ?_⟩
    rw [← Entry.isExpired_of_row ((h.copied hm).ofRow hrow), hlive]
  · exact .inr ⟨hloads, row, hrow, hlive⟩

/-- A counter is counted on from 41, though every delete fails. -/
theorem typed_carried_out_incr :
    let store : Faulty Table := ⟨.empty, fun _ call => call = .delete, 0⟩
    store.inner = Table.empty ∧ Table.empty.Named ∧
    ((((Engine.fresh store 0 "main").performAll
      [⟨5, _, .setValue "main" "n" (.string "41") none⟩]).performTyped 6 "main" "n"
        (.incrBy 1)).2.store.inner.get? "main" "n").map (·.value) = some (.string "42") := by
  intro store
  have hempty : store.inner = Table.empty := rfl
  have named : Table.empty.Named := Table.named_empty
  refine ⟨rfl, named, ?_⟩
  obtain ⟨t, t', rfl, rfl, hcarried⟩ := typed_carried_out Table.reliable hempty named 0 "main"
    [⟨5, _, .setValue "main" "n" (.string "41") none⟩] 6 "main" "n" (.incrBy 1)
  have hrow : ((Engine.fresh store 0 "main").performAll
      [⟨5, _, .setValue "main" "n" (.string "41") none⟩]).store.inner.get? "main" "n" =
        some ⟨"main", "n", .string "41", 5, 5, none, false⟩ := by cbv
  have hdoes : (Typed.incrBy 1).plan.onValue (.string "41") = .ok (42, some (.string "42")) := by
    decide +kernel
  obtain ⟨⟨err, herr⟩, -⟩ | ⟨result, left, hresult, -, hleft⟩ :=
    hcarried _ hrow rfl (.inr fun n _ _ => by cbv) fun result hnone => by
      cases hdoes.symm.trans hnone
  · have hreply : ((Engine.fresh store 0 "main").performAll
        [⟨5, _, .setValue "main" "n" (.string "41") none⟩]).performTyped 6 "main" "n"
          (.incrBy 1) |>.1.toBool = true := by cbv
    rw [herr] at hreply
    cases hreply
  · cases hdoes.symm.trans hresult
    exact hleft

/-- A counter that cannot be loaded starts anew: 41 and 1 make 1. -/
theorem incr_unread :
    let e := (Engine.fresh (Faulty.mk Table.empty (fun _ call => call = .load) 0) 0 "main").performAll
      [⟨5, _, .setValue "main" "n" (.string "41") none⟩]
    let outcome := e.performTyped 6 "main" "n" (.incrBy 1)
    e.store.inner.get? "main" "n" = some ⟨"main", "n", .string "41", 5, 5, none, false⟩ ∧
      outcome.1 = .ok 1 ∧
      (outcome.2.store.inner.get? "main" "n").map (·.value) = some (.string "1") := by
  cbv
  exact ⟨rfl, trivial⟩

end Engine
end TierCache
