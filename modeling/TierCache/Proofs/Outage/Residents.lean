import TierCache.Proofs.Outage.Performing

/-!
Entries in memory while the store may fail. If the clock never runs backwards, what is visible in memory
is in the store, so that entries may leave memory at any time.
-/
namespace TierCache
open Std

namespace Cell

variable {c : Cell} {now : Nat}

/-- An entry in memory has no other contents than the one in the store, if there is one. -/
def Agrees (c : Cell) : Prop :=
  ∀ row entry, c.copy = some row → c.stored = some entry → entry.row = row

/-- What leaves memory is still seen in the store. -/
theorem visible?_dropped (agrees : c.Agrees) (backed : c.Backed now) :
    ({ c with copy := none } : Cell).visible? now = c.visible? now := by
  obtain ⟨known, copy, stored⟩ := c
  cases copy with
  | none => rfl
  | some row =>
    cases hvisible : row.isVisible now with
    | true =>
      obtain ⟨entry, hstored, hrow⟩ := backed row rfl hvisible
      dsimp only at hstored
      subst hstored hrow
      rfl
    | false =>
      cases stored with
      | none => simp [visible?, held, Option.filter_some, hvisible]
      | some entry =>
        cases agrees row entry rfl rfl
        rfl

end Cell

theorem Backed.agrees {σ : Type} {stands : σ → Table → Prop} {e : Engine (Faulty σ)} {t : Table}
    (h : Backed stands e t) (region key : String) : (e.cell t region key).Agrees := by
  intro row entry hcopy hstored
  obtain ⟨copy, hm, rfl⟩ := Option.map_eq_some_iff.mp hcopy
  exact (h.copied hm).ofRow hstored

namespace Engine

variable {σ : Type}

/-- An eviction leaves a key as it is or moves it out of memory. -/
theorem cell_evictOne (e : Engine σ) (t : Table) (region key : String) :
    e.evictOne.2.cell t region key = e.cell t region key ∨
      e.evictOne.2.cell t region key = { e.cell t region key with copy := none } := by
  have hshrinks := e.shrinks_evictOne region key
  have hcell : e.evictOne.2.cell t region key = { e.cell t region key with
      copy := (e.evictOne.2.regionD region).memory[key]?.map Entry.row } := by
    rw [cell, known_evictOne]
    rfl
  rw [hcell]
  cases hm : (e.evictOne.2.regionD region).memory[key]? with
  | none => exact .inr rfl
  | some entry =>
    rw [cell, hshrinks entry hm]
    exact .inl rfl

variable [Store σ] {stands : σ → Table → Prop}

/-- After any run by a clock that never runs backwards, over a store that fails whenever it likes, each
entry in memory that is not expired has a row with the same contents. No key looks different once its
entry is evicted, and only rows from before the run say that they are in memory. -/
theorem resident_backed (reliable : Reliable stands) {store : Faulty σ} {t₀ : Table}
    (h₀ : stands store.inner t₀) (named : t₀.Named) (capacity : Nat) (defaultRegion : String)
    (calls : List Call) (ordered : (calls.map Call.now).Pairwise (· ≤ ·)) (now : Nat)
    (hnow : ∀ call ∈ calls, call.now ≤ now) :
    let e := (Engine.fresh store capacity defaultRegion).performAll calls
    ∃ t, stands e.store.inner t ∧ ∀ region key,
      (∀ entry, (e.regionD region).memory[key]? = some entry → entry.isExpired now = false →
        ∃ row, t.get? region key = some row ∧ row.value = entry.value ∧
          row.createdAt = entry.createdAt ∧ row.expiresAt = entry.expiresAt) ∧
      ({ e.cell t region key with copy := none } : Cell).visible? now =
        (e.cell t region key).visible? now ∧
      (e.evictOne.2.cell t region key).visible? now = (e.cell t region key).visible? now ∧
      (∀ row, t.get? region key = some row → row.resident = true →
        ∃ old, t₀.get? region key = some old ∧ row = { old with expiresAt := row.expiresAt }) := by
  intro e
  obtain ⟨t, h, hruns⟩ :=
    (Backed.fresh h₀ named capacity defaultRegion).performAll_runs reliable calls
  refine ⟨t, h.stored, ?_⟩
  intro region key
  have hfresh : ((Engine.fresh store capacity defaultRegion).cell t₀ region key).Backed 0 := by
    intro row hcopy
    simp [cell] at hcopy
  have hbacked : (e.cell t region key).Backed now := by
    refine (hruns region key).backed hfresh ?_ hnow (Nat.zero_le now)
    rw [List.pairwise_cons]
    exact ⟨fun _ _ => Nat.zero_le _, ordered⟩
  have hdropped := Cell.visible?_dropped (h.agrees region key) hbacked
  refine ⟨?_, hdropped, ?_, (hruns region key).inherits⟩
  · intro entry hm hlive
    have hvisible : entry.row.isVisible now = true := by rw [entry.isVisible_row, hlive]; rfl
    obtain ⟨row, hrow, hsame⟩ := hbacked entry.row (congrArg (Option.map Entry.row) hm) hvisible
    refine ⟨row, hrow, ?_⟩
    rwa [Entry.row, Entry.row, Row.mk.injEq] at hsame
  · obtain hsame | hgone := e.cell_evictOne t region key
    · rw [hsame]
    · rw [hgone, hdropped]

/-- An entry in memory is backed by its row, though the store neither loads nor deletes. -/
theorem resident_backed_kept :
    let store : Faulty Table := ⟨.empty, fun _ call => call = .load || call = .delete, 0⟩
    let e := (Engine.fresh store 1 "main").performAll
      [⟨5, _, .setValue "main" "k" (.string "v") none⟩, ⟨6, _, .persist "main" "k"⟩]
    store.inner = Table.empty ∧ Table.empty.Named ∧
      ([5, 6] : List Nat).Pairwise (· ≤ ·) ∧
      (e.store.inner.get? "main" "k").map (·.value) = some (.string "v") := by
  intro store e
  have hempty : store.inner = Table.empty := rfl
  have named : Table.empty.Named := Table.named_empty
  have ordered : ([5, 6] : List Nat).Pairwise (· ≤ ·) := by decide
  refine ⟨rfl, named, ordered, ?_⟩
  obtain ⟨t, rfl, hkeys⟩ := resident_backed Table.reliable hempty named 1 "main"
    [⟨5, _, .setValue "main" "k" (.string "v") none⟩, ⟨6, _, .persist "main" "k"⟩] ordered 7
    (by simp)
  obtain ⟨hbacked, -⟩ := hkeys "main" "k"
  have hm : (e.regionD "main").memory["k"]? = some ⟨"main", "k", .string "v", 5, 5, none, true⟩ := by
    decide +kernel
  obtain ⟨row, hrow, hvalue, -⟩ := hbacked _ hm rfl
  rw [hrow, Option.map_some, hvalue]

end Engine
end TierCache
