import TierCache.Proofs.Outage.Performing

/-!
What an engine tells while the store may fail. What it tells of an operation that was carried out is so;
of one that was refused it tells nothing, but that a region is deleted it tells before it asks the store.
-/
namespace TierCache
open Std

namespace Engine

variable {σ α : Type} [Store σ] {stands : σ → Table → Prop}

/-- After any run over a store that fails whenever it likes, an operation that is refused leaves all rows
and all known keys as they were and tells nothing, except of a region that was to be deleted. What is
told of an operation that is not refused is so, if the store did its deletes. -/
theorem told_holds (reliable : Reliable stands) {store : Faulty σ} {t₀ : Table}
    (h₀ : stands store.inner t₀) (named : t₀.Named) (capacity : Nat) (defaultRegion : String)
    (calls : List Call) (now : Nat) (op : Operation α) :
    let e := (Engine.fresh store capacity defaultRegion).performAll calls
    let outcome := e.perform now op
    ∃ t t' told, stands e.store.inner t ∧ stands outcome.2.store.inner t' ∧
      outcome.2.signals = e.signals ++ told ∧
      (op.Refused outcome.1 → told = op.foretells e.defaultRegion ∧ t' = t ∧
        ∀ region key, (e.cell t region key).Same (outcome.2.cell t' region key)) ∧
      (¬op.Refused outcome.1 → e.store.Answered outcome.2.store .delete →
        ∀ signal ∈ told, signal.Holds now (outcome.2.cell t')) := by
  intro e outcome
  obtain ⟨t, h⟩ := (Backed.fresh h₀ named capacity defaultRegion).performAll reliable calls
  obtain ⟨hrefused, hdone⟩ := h.perform_ends reliable now op
  by_cases herr : op.Refused outcome.1
  · have hmoves := hrefused herr
    refine ⟨t, t, _, h.stored, hmoves.backed.stored, hmoves.signals, ?_, fun hne => absurd herr hne⟩
    exact fun _ => ⟨rfl, rfl, fun region key => (hmoves.path region key).same⟩
  · obtain ⟨t', told, hdone⟩ := hdone herr
    refine ⟨t, t', told, h.stored, hdone.moves.backed.stored, hdone.moves.signals,
      fun hyes => absurd hyes herr, ?_⟩
    exact fun _ answered signal hsignal => hdone.holds answered hsignal

/-- Of an expiry that the store does not clear nothing is told. -/
theorem told_holds_persist :
    let store : Faulty Table := ⟨.empty, fun _ call => call = .updateExpiry, 0⟩
    let e := (Engine.fresh store 1 "main").performAll
      [⟨5, _, .setValue "main" "k" (.string "v") (some 10)⟩]
    store.inner = Table.empty ∧ Table.empty.Named ∧
      (e.perform 6 (.persist "main" "k")).2.signals = e.signals := by
  intro store e
  have hempty : store.inner = Table.empty := rfl
  have named : Table.empty.Named := Table.named_empty
  refine ⟨rfl, named, ?_⟩
  obtain ⟨_, _, told, -, -, hsignals, hrefused, -⟩ := told_holds Table.reliable hempty named 1 "main"
    [⟨5, _, .setValue "main" "k" (.string "v") (some 10)⟩] 6 (.persist "main" "k")
  have hreply : (e.perform 6 (.persist "main" "k")).1 = .error (Faulty.injected .updateExpiry) := by
    decide +kernel
  obtain ⟨rfl, -⟩ := hrefused ⟨_, hreply⟩
  exact hsignals.trans (List.append_nil _)

/-- A region that the store does not delete is told to be deleted, and its keys are read again. -/
theorem refused_told :
    let e := (Engine.fresh (Faulty.mk Table.empty (fun _ call => call = .deleteRegion) 0) 1
      "main").performAll [⟨5, _, .setValue "orders" "k" (.string "v") none⟩]
    let outcome := e.deleteRegion "orders"
    outcome.1 = .error (Faulty.injected .deleteRegion) ∧
      outcome.2.signals = e.signals ++ [.mutation (.deleteRegion "orders")] ∧
      (outcome.2.get 6 "orders" "k").1 = some "v" := by
  decide +kernel

end Engine
end TierCache
