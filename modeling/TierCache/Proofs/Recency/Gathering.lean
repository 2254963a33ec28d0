import TierCache.Proofs.Outage.Reading
import TierCache.Proofs.Recency.Fading

/-!
Reads and priming. They touch what they find in memory, and put entries into memory as long as a slot is
free; nothing makes room for them.
-/
namespace TierCache
open Std

namespace Engine

variable {σ : Type} {e e' e'' : Engine σ}

/-- Nothing left memory, what came into it was touched and found a free slot, and the touches are
remembered. -/
structure Gathers (touched : List RowId) (e e' : Engine σ) : Prop where
  recalls {history : List RowId} (h : e.Recalls history) : e'.Recalls (history ++ touched)
  evictions : e'.stats.evictions = e.stats.evictions
  capacity : e'.capacity = e.capacity
  resident : e.resident ≤ e'.resident
  stays (id : RowId) (h : e.inMemory id = true) : e'.inMemory id = true
  came (id : RowId) (h : e'.inMemory id = true) :
    e.inMemory id = true ∨ id ∈ touched ∧ e.resident < e.capacity

theorem Still.gathers (h : e.Still e') : e.Gathers [] e' where
  recalls recalls := by
    rw [List.append_nil]
    exact h.recalls recalls
  evictions := h.evictions
  capacity := h.capacity
  resident := h.resident.ge
  stays id hin := (h.inMemory id).trans hin
  came id hin := .inl ((h.inMemory id).symm.trans hin)

namespace Gathers

variable {touched touched' : List RowId}

theorem trans (h : e.Gathers touched e') (h' : e'.Gathers touched' e'') :
    e.Gathers (touched ++ touched') e'' where
  recalls recalls := by
    rw [← List.append_assoc]
    exact h'.recalls (h.recalls recalls)
  evictions := h'.evictions.trans h.evictions
  capacity := h'.capacity.trans h.capacity
  resident := Nat.le_trans h.resident h'.resident
  stays id hin := h'.stays id (h.stays id hin)
  came id hin := by
    obtain hmid | ⟨hmem, hroom⟩ := h'.came id hin
    · obtain hin | ⟨hmem, hroom⟩ := h.came id hmid
      · exact .inl hin
      · exact .inr ⟨List.mem_append_left _ hmem, hroom⟩
    · have := h.resident
      have := h.capacity
      exact .inr ⟨List.mem_append_right _ hmem, by omega⟩

/-- Making a key known does nothing to memory. -/
theorem know (e : Engine σ) (region key : String) : e.Gathers [] (e.know region key) := by
  have hstamps := e.stamp?_know region key
  have hmemory := e.inMemory_know region key
  refine ⟨fun recalls => ?_, rfl, rfl, Nat.le_refl _, fun id hin => (hmemory id).trans hin,
    fun id hin => .inl ((hmemory id).symm.trans hin)⟩
  rw [List.append_nil]
  exact recalls.fade (Nat.le_refl _) fun id _ hs => (hstamps id).symm.trans hs

/-- An entry in memory is used, or one put into a free slot. -/
theorem of_puts {id : RowId} (h : e.Puts id e') (hresident : e.resident ≤ e'.resident)
    (hslot : e.inMemory id = true ∨ e.resident < e.capacity) : e.Gathers [id] e' := by
  refine ⟨fun recalls => recalls.puts h, h.evictions, h.capacity, hresident, ?_, ?_⟩
  · intro other hin
    rw [h.memory, hin, Bool.or_true]
  · intro other hin
    rw [h.memory, Bool.or_eq_true, decide_eq_true_eq] at hin
    obtain rfl | hin := hin
    · exact hslot.imp_right fun hroom => ⟨List.mem_singleton_self _, hroom⟩
    · exact .inl hin

/-- A free slot is claimed, and an entry put into memory. -/
theorem claim (hroom : e.resident < e.capacity) (region : String) (entry : Entry) :
    e.Gathers [⟨region, entry.key⟩]
        ({ e with resident := e.resident + 1 }.install region entry true).2 ∧
      ({ e with resident := e.resident + 1 }.install region entry true).2.inMemory
        ⟨region, entry.key⟩ = true := by
  have hputs := ({ e with resident := e.resident + 1 } : Engine σ).puts_install region
    entry (.inr rfl)
  have hclaimed : e.Puts ⟨region, entry.key⟩
      ({ e with resident := e.resident + 1 }.install region entry true).2 :=
    ⟨hputs.stamps, hputs.memory, hputs.known, hputs.clock, hputs.capacity, hputs.evictions⟩
  refine ⟨of_puts hclaimed ?_ (.inr hroom), ?_⟩
  · unfold install
    split
    · exact Nat.le_refl _
    · exact Nat.le_succ _
  · rw [hputs.memory, decide_eq_true rfl, Bool.true_or]

end Gathers

/-! ### Priming -/

/-- The keys of rows that find a free slot, one row after another. -/
def primed (e : Engine σ) : List Entry → List RowId
  | [] => []
  | entry :: rest =>
    (if e.resident < e.capacity then [⟨entry.region, entry.key⟩] else []) ++
      (e.primeEntry entry).primed rest

theorem primeEntry_gathers (e : Engine σ) (entry : Entry) :
    e.Gathers (if e.resident < e.capacity then [⟨entry.region, entry.key⟩] else [])
      (e.primeEntry entry) := by
  have hensured := Still.ensureRegion e entry.region
  have hknown := hensured.gathers.trans
    (.know (e.ensureRegion entry.region) entry.region entry.key)
  have hresident : ((e.ensureRegion entry.region).know entry.region entry.key).resident = e.resident :=
    hensured.resident
  have hcapacity : ((e.ensureRegion entry.region).know entry.region entry.key).capacity = e.capacity :=
    hensured.capacity
  unfold primeEntry
  dsimp only
  obtain ⟨hroom, htry⟩ | ⟨hfull, htry⟩ :=
    ((e.ensureRegion entry.region).know entry.region entry.key).tryReserve_cases
  · have hclaimed := (Gathers.claim hroom entry.region { entry with resident := true }).1
    rw [if_pos (hresident ▸ hcapacity ▸ hroom)]
    split
    · rename_i heq
      cases htry.symm.trans heq
      exact hknown.trans hclaimed
    · rename_i heq
      cases htry.symm.trans heq
  · rw [if_neg (Nat.not_lt.mpr (hresident ▸ hcapacity ▸ hfull))]
    split
    · rename_i heq
      cases htry.symm.trans heq
    · rename_i heq
      cases htry.symm.trans heq
      exact hknown

theorem primeEntries_gathers (entries : List Entry) (e : Engine σ) :
    e.Gathers (e.primed entries) (entries.foldl primeEntry e) := by
  induction entries generalizing e with
  | nil => exact (Still.refl e).gathers
  | cons entry rest ih => exact (e.primeEntry_gathers entry).trans (ih _)

section
variable [Store σ]

/-- What priming touches: the rows that are loaded and not expired, while a slot is free. -/
def touchedByPriming (e : Engine σ) (now : Nat) : List RowId :=
  match Store.loadAll e.store with
  | (.ok entries, store) => { e with store }.primed (entries.filter (!·.isExpired now))
  | (.error _, _) => []

theorem prime_gathers (e : Engine σ) (now : Nat) :
    e.Gathers (e.touchedByPriming now) (e.prime now).2 := by
  unfold touchedByPriming prime
  split
  · rename_i entries store hload
    rw [hload]
    exact (Still.withStore e store).gathers.trans (primeEntries_gathers _ _)
  · rename_i err store hload
    rw [hload]
    exact (Still.withStore e store).gathers

/-- What a read touches: the key, if it is found and in memory then. -/
def touchedByReading (e : Engine σ) (now : Nat) (id : RowId) : List RowId :=
  if (e.getEntry now id.region id.key).1.isSome ∧
      (e.getEntry now id.region id.key).2.inMemory id = true then [id] else []

end

/-- A read served the key from memory, or left memory as it was. -/
def Serves (e : Engine σ) (id : RowId) (outcome : Option Entry × Engine σ) : Prop :=
  (outcome.1.isSome ∧ outcome.2.inMemory id = true) ∧ e.Gathers [id] outcome.2 ∨
    ¬(outcome.1.isSome ∧ outcome.2.inMemory id = true) ∧ e.Still outcome.2

theorem Serves.after {id : RowId} {outcome : Option Entry × Engine σ} (h : e'.Serves id outcome)
    (still : e.Still e') : e.Serves id outcome := by
  obtain ⟨hserved, hgathers⟩ | ⟨hserved, hstill⟩ := h
  · exact .inl ⟨hserved, by simpa using still.gathers.trans hgathers⟩
  · exact .inr ⟨hserved, still.trans hstill⟩

end Engine

namespace Backed
open Engine

variable {σ : Type} [Store σ] {stands : σ → Table → Prop} (reliable : Reliable stands)
  {e : Engine (Faulty σ)} {t : Table} (h : Backed stands e t) (now : Nat) (region key : String)
include reliable h

theorem readEntry_serves : e.Serves ⟨region, key⟩ (e.readEntry now region key) := by
  unfold Engine.readEntry
  dsimp only
  cases hmem : (e.regionD region).memory[key]? with
  | some entry =>
    have hin : e.inMemory ⟨region, key⟩ = true := by
      rw [inMemory, isResident, ExtTreeMap.contains_eq_isSome_getElem?, hmem]
      rfl
    dsimp only
    split
    · exact .inr ⟨by simp, .refl e⟩
    · have hputs := e.puts_hold region key (entry.touch now)
      refine .inl ⟨⟨rfl, ?_⟩, .of_puts hputs (Nat.le_refl _) (.inl hin)⟩
      rw [hputs.memory, hin, Bool.or_true]
  | none =>
    have hout : e.inMemory ⟨region, key⟩ = false := by
      rw [inMemory, isResident, ExtTreeMap.contains_eq_isSome_getElem?, hmem]
      rfl
    obtain ⟨found, s, hload, hmoves, hshown, -⟩ := h.loadLive reliable now region key hmem
    rw [hload]
    have hstill := Still.withStore e s
    cases found with
    | none => exact .inr ⟨by simp, hstill⟩
    | some entry =>
      have hkey : entry.key = key := (hshown.live rfl).2.ofKey
      dsimp only
      obtain ⟨hroom, htry⟩ | ⟨-, htry⟩ := ({ e with store := s } : Engine (Faulty σ)).tryReserve_cases
      · rw [htry]
        have hclaim := Gathers.claim hroom region { entry.touch now with resident := true }
        rw [show ({ entry.touch now with resident := true } : Entry).key = key from hkey] at hclaim
        exact .inl ⟨⟨rfl, hclaim.2⟩, hstill.gathers.trans hclaim.1⟩
      · rw [htry]
        refine .inr ⟨?_, hstill⟩
        rw [hstill.inMemory, hout]
        simp

theorem getEntry_serves : e.Serves ⟨region, key⟩ (e.getEntry now region key) := by
  unfold Engine.getEntry
  split
  · exact h.readEntry_serves reliable now region key
  · rename_i hregion
    obtain ⟨found, s, hload, hmoves, -⟩ := h.loadLive reliable now region key
      (by simp [Engine.regionD_of_none hregion])
    rw [hload]
    have hstill := Still.withStore e s
    cases found with
    | none => exact .inr ⟨by simp, hstill⟩
    | some entry =>
      exact ((hmoves.backed.ensureRegion region).readEntry_serves reliable now region key).after
        (hstill.trans (.ensureRegion _ region))

/-- A read touches its key if it serves it from memory, and leaves memory as it was otherwise. -/
theorem getEntry_touches :
    e.touchedByReading now ⟨region, key⟩ = [⟨region, key⟩] ∧
        e.Gathers [⟨region, key⟩] (e.getEntry now region key).2 ∧
        (e.getEntry now region key).2.inMemory ⟨region, key⟩ = true ∨
      e.touchedByReading now ⟨region, key⟩ = [] ∧ e.Still (e.getEntry now region key).2 := by
  obtain ⟨hserved, hgathers⟩ | ⟨hserved, hstill⟩ := h.getEntry_serves reliable now region key
  · exact .inl ⟨if_pos hserved, hgathers, hserved.2⟩
  · exact .inr ⟨if_neg hserved, hstill⟩

end Backed
end TierCache
