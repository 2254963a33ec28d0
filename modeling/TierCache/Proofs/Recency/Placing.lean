import TierCache.Proofs.Engine.Upkeep
import TierCache.Proofs.Recency.Gathering

/-!
Writes. A key that is written is in memory afterwards; only if it was not and no slot was free did one
other entry leave memory, the one whose last use came first.
-/
namespace TierCache
open Std

namespace Engine

variable {σ α : Type} {e e₁ e' : Engine σ} {touched : List RowId} {id : RowId}

/-- The touches are remembered, and what came into memory was touched and found a free slot. -/
structure Follows (touched : List RowId) (e e' : Engine σ) : Prop where
  recalls {history : List RowId} (h : e.Recalls history) : e'.Recalls (history ++ touched)
  came (id : RowId) (h : e'.inMemory id = true) :
    e.inMemory id = true ∨ id ∈ touched ∧ e.resident < e.capacity

/-- A key was written. -/
structure Places (touched : List RowId) (id : RowId) (e e' : Engine σ) : Prop where
  recalls {history : List RowId} (h : e.Recalls history) : e'.Recalls (history ++ touched)
  placed : e'.inMemory id = true
  fits (h : e.inMemory id = true ∨ e.resident < e.capacity) :
    e'.stats.evictions = e.stats.evictions ∧
      ∀ other, other ≠ id → e'.inMemory other = e.inMemory other
  evicts (h : e.inMemory id = false) (h' : e.capacity ≤ e.resident) :
    e'.stats.evictions = e.stats.evictions + 1 ∧ ∃ victim, e.Oldest victim ∧
      e.inMemory victim = true ∧ e'.knows victim = e.knows victim ∧
      ∀ other, other ≠ id → e'.inMemory other = (decide (other ≠ victim) && e.inMemory other)

/-- A write ends: with the key in memory, or with an error and nothing touched. -/
def Lands (id : RowId) (e : Engine σ) : Except CacheError α × Engine σ → Prop
  | (.ok _, e') => e.Places [id] id e'
  | (.error _, e') => e.Follows [] e'

namespace Follows

theorem refl (e : Engine σ) : e.Follows [] e :=
  ⟨fun recalls => by rwa [List.append_nil], fun _ => .inl⟩

/-- Only the regions and the clock matter. -/
theorem of_regions (h : e.Follows touched e₁) (regions : e'.regions = e₁.regions)
    (clock : e'.clock = e₁.clock) : e.Follows touched e' := by
  refine ⟨fun recalls => (h.recalls recalls).fade clock.ge fun other tick hs => ?_, fun other hin => ?_⟩
  · rwa [stamp?_of_regions regions] at hs
  · rw [inMemory_of_regions regions] at hin
    exact h.came other hin

theorem evicted (e : Engine σ) (id : RowId) : e.Follows [] (e.evicted id) := by
  refine ⟨fun recalls => ?_, fun other hin => .inl ?_⟩
  · rw [List.append_nil]
    exact recalls.evicted id
  · rw [inMemory_evicted, Bool.and_eq_true] at hin
    exact hin.2

end Follows

theorem Still.follows (h : e.Still e₁) (h' : e₁.Follows touched e') : e.Follows touched e' where
  recalls recalls := h'.recalls (h.recalls recalls)
  came id hin := by
    rw [← h.inMemory, ← h.resident, ← h.capacity]
    exact h'.came id hin

theorem Gathers.follows {later : List RowId} (h : e.Gathers touched e₁) (h' : e₁.Follows later e') :
    e.Follows (touched ++ later) e' where
  recalls recalls := by
    rw [← List.append_assoc]
    exact h'.recalls (h.recalls recalls)
  came id hin := by
    obtain hmid | ⟨hmem, hroom⟩ := h'.came id hin
    · exact (h.came id hmid).imp_right fun ⟨hmem, hroom⟩ => ⟨List.mem_append_left _ hmem, hroom⟩
    · have := h.resident
      have := h.capacity
      exact .inr ⟨List.mem_append_right _ hmem, by omega⟩

namespace Places

/-- A key that has a slot takes no one else's. -/
theorem of_puts (h : e.Puts id e') (hslot : e.inMemory id = true ∨ e.resident < e.capacity) :
    e.Places [id] id e' := by
  refine ⟨fun recalls => recalls.puts h, ?_, fun _ => ⟨h.evictions, fun other hne => ?_⟩, ?_⟩
  · rw [h.memory, decide_eq_true rfl, Bool.true_or]
  · rw [h.memory, decide_eq_false hne, Bool.false_or]
  · intro hout hfull
    obtain hin | hroom := hslot
    · rw [hin] at hout
      cases hout
    · omega

/-- A key takes the slot of the entry whose last use came first. -/
theorem of_evicted {victim : RowId} (oldest : e.Oldest victim) (hvictim : e.inMemory victim = true)
    (hout : e.inMemory id = false) (hfull : e.capacity ≤ e.resident)
    (hcleared : (e.evicted victim).Puts id e') : e.Places [id] id e' := by
  have hne : victim ≠ id := by
    rintro rfl
    rw [hvictim] at hout
    cases hout
  refine ⟨fun recalls => (recalls.evicted victim).puts hcleared, ?_, fun hslot => ?_,
    fun _ _ => ⟨hcleared.evictions, victim, oldest, hvictim, ?_, fun other hother => ?_⟩⟩
  · rw [hcleared.memory, decide_eq_true rfl, Bool.true_or]
  · obtain hin | hroom := hslot
    · rw [hin] at hout
      cases hout
    · omega
  · rw [hcleared.known hne, knows_evicted]
  · rw [hcleared.memory, decide_eq_false hother, Bool.false_or, inMemory_evicted]

theorem still (h : e₁.Places touched id e') (still : e.Still e₁) : e.Places touched id e' := by
  refine ⟨fun recalls => h.recalls (still.recalls recalls), h.placed, fun hslot => ?_, fun hout hfull => ?_⟩
  · rw [← still.inMemory, ← still.resident, ← still.capacity] at hslot
    rw [← still.evictions]
    simp only [← still.inMemory]
    exact h.fits hslot
  · rw [← still.inMemory] at hout
    rw [← still.resident, ← still.capacity] at hfull
    obtain ⟨hevictions, victim, oldest, hvictim, hknown, hothers⟩ := h.evicts hout hfull
    rw [still.evictions] at hevictions
    rw [still.knows] at hknown
    simp only [still.inMemory] at hvictim hothers
    exact ⟨hevictions, victim, still.oldest oldest, hvictim, hknown, hothers⟩

/-- What memory served before it was written has its slot. -/
theorem gathered (h : e₁.Places touched id e') (gathers : e.Gathers [id] e₁)
    (hserved : e₁.inMemory id = true) : e.Places ([id] ++ touched) id e' := by
  have hslot : e.inMemory id = true ∨ e.resident < e.capacity :=
    (gathers.came id hserved).imp_right And.right
  refine ⟨fun recalls => ?_, h.placed, fun _ => ?_, fun hout hfull => ?_⟩
  · rw [← List.append_assoc]
    exact h.recalls (gathers.recalls recalls)
  · obtain ⟨hevictions, hothers⟩ := h.fits (.inl hserved)
    refine ⟨hevictions.trans gathers.evictions, fun other hne => ?_⟩
    rw [hothers other hne, Bool.eq_iff_iff]
    refine ⟨fun hin => ?_, gathers.stays other⟩
    exact (gathers.came other hin).resolve_right fun h => hne (List.mem_singleton.mp h.1)
  · rw [hout] at hslot
    have := hslot.resolve_left Bool.false_ne_true
    omega

/-- Only the regions, the clock and the count of evictions matter. -/
theorem then_still (h : e.Places touched id e₁) (still : e₁.Still e') : e.Places touched id e' := by
  refine ⟨fun recalls => still.recalls (h.recalls recalls), ?_, ?_, ?_⟩
  all_goals simp only [still.inMemory, still.evictions, still.knows]
  · exact h.placed
  · exact h.fits
  · exact h.evicts

/-- What came into memory was written. -/
theorem came (h : e.Places touched id e') (other : RowId) (hin : e'.inMemory other = true) :
    e.inMemory other = true ∨ other = id := by
  by_cases hne : other = id
  · exact .inr hne
  · left
    by_cases hslot : e.inMemory id = true ∨ e.resident < e.capacity
    · rw [← (h.fits hslot).2 other hne, hin]
    · rw [not_or, Bool.not_eq_true, Nat.not_lt] at hslot
      obtain ⟨-, victim, -, -, -, hothers⟩ := h.evicts hslot.1 hslot.2
      rw [hothers other hne, Bool.and_eq_true] at hin
      exact hin.2

/-- Nothing leaves memory for a write that needs no room. -/
theorem stays (h : e.Places touched id e')
    (hslot : e.inMemory id = true ∨ e.resident < e.capacity) :
    e'.stats.evictions = e.stats.evictions ∧
      ∀ other, e.inMemory other = true → e'.inMemory other = true := by
  obtain ⟨hevictions, hothers⟩ := h.fits hslot
  refine ⟨hevictions, fun other hin => ?_⟩
  by_cases hother : other = id
  · rw [hother]
    exact h.placed
  · exact (hothers other hother).trans hin

/-- What makes room for a write is the entry whose last touch came first. -/
theorem makes_room {history : List RowId} (h : e.Places touched id e') (ordered : e.Ordered)
    (recalls : e.Recalls history) (hout : e.inMemory id = false)
    (hfull : e.resident = e.capacity) :
    e'.stats.evictions = e.stats.evictions + 1 ∧ ∃ victim, e.inMemory victim = true ∧
      e'.inMemory victim = false ∧ e'.knows victim = e.knows victim ∧
      ∀ other, other ≠ victim → e.inMemory other = true →
        e'.inMemory other = true ∧ Sooner history victim other := by
  obtain ⟨hevictions, victim, oldest, hvictim, hknown, hothers⟩ := h.evicts hout hfull.ge
  have hin_ne {other : RowId} (hin : e.inMemory other = true) : other ≠ id := by
    rintro rfl
    exact Bool.false_ne_true (hout.symm.trans hin)
  refine ⟨hevictions, victim, hvictim, ?_, hknown, fun other hne hin => ⟨?_, ?_⟩⟩
  · have hgone := hothers victim (hin_ne hvictim)
    simpa using hgone
  · have hstays := hothers other (hin_ne hin)
    rwa [decide_eq_true hne, Bool.true_and, hin] at hstays
  · exact oldest.sooner ordered recalls hin hne

end Places

theorem Still.lands {outcome : Except CacheError α × Engine σ} (h : e.Still e₁)
    (h' : e₁.Lands id outcome) : e.Lands id outcome := by
  obtain ⟨reply, e'⟩ := outcome
  cases reply with
  | error err => exact h.follows h'
  | ok written => exact Places.still h' h

variable [Store σ]

/-- A row that has a slot is put into memory if the store saves it. -/
theorem saveRow_puts (e : Engine σ) (row : Entry) (claimed : Bool)
    (hslot : e.inMemory ⟨row.region, row.key⟩ = true ∨ claimed = true) :
    (∃ written e', e.saveRow row true claimed = (.ok written, e') ∧
      e.Puts ⟨row.region, row.key⟩ e') ∨
    ∃ err e', e.saveRow row true claimed = (.error err, e') ∧ e'.regions = e.regions ∧
      e'.clock = e.clock := by
  cases hsave : Store.save row e.store with
  | mk reply s => cases reply with
    | ok =>
      refine .inl ⟨_, _, (saveRow_of_ok hsave claimed).1, ?_⟩
      have hput : (({ e with store := s } : Engine σ).know row.region row.key).Puts
          ⟨row.region, row.key⟩ _ := puts_install row.region { row with resident := true } <|
        hslot.imp_left (inMemory_know _ row.region row.key ⟨row.region, row.key⟩).trans
      exact ⟨hput.of_know.stamps, hput.of_know.memory, hput.of_know.known, hput.of_know.clock,
        hput.of_know.capacity, hput.of_know.evictions⟩
    | error err =>
      refine .inr ⟨err, _, by simp only [saveRow, hsave]; rfl, ?_, ?_⟩
      · split <;> rfl
      · split <;> rfl

theorem saveRow_lands_resident {row : Entry} (hin : e.inMemory ⟨row.region, row.key⟩ = true) :
    e.Lands ⟨row.region, row.key⟩ (e.saveRow row true false) := by
  obtain ⟨written, e', hsave, hputs⟩ | ⟨err, e', hsave, hregions, hclock⟩ :=
    e.saveRow_puts row false (.inl hin)
  · rw [hsave]
    exact .of_puts hputs (.inl hin)
  · rw [hsave]
    exact (Follows.refl e).of_regions hregions hclock

/-- A row that is not in memory is saved with a slot that is claimed first. -/
theorem Sound.reserve_lands {c : Setup} (h : e.Sound c 0) (hpositive : 0 < c.capacity) (row : Entry)
    (hout : e.inMemory ⟨row.region, row.key⟩ = false) : ∃ claimed, e.reserve = (true, claimed) ∧
      e.Lands ⟨row.region, row.key⟩ (claimed.saveRow row true true) := by
  have hcapacity := h.capacity
  obtain ⟨hroom, hreserve⟩ | ⟨hfull, victim, oldest, hvictim, hreserve⟩ := h.reserve_claims hpositive
  · refine ⟨_, hreserve, ?_⟩
    obtain ⟨written, e', hsave, hputs⟩ | ⟨err, e', hsave, hregions, hclock⟩ :=
      ({ e with resident := e.resident + 1 } : Engine σ).saveRow_puts row true (.inr rfl)
    · rw [hsave]
      refine .of_puts ⟨hputs.stamps, hputs.memory, hputs.known, hputs.clock, hputs.capacity,
        hputs.evictions⟩ (.inr ?_)
      omega
    · rw [hsave]
      exact (Follows.refl e).of_regions hregions hclock
  · refine ⟨_, hreserve, ?_⟩
    obtain ⟨written, e', hsave, hputs⟩ | ⟨err, e', hsave, hregions, hclock⟩ :=
      ({ e.evicted victim with resident := e.resident } : Engine σ).saveRow_puts row true (.inr rfl)
    · rw [hsave]
      refine .of_evicted oldest hvictim hout (by omega) ⟨hputs.stamps, hputs.memory, hputs.known,
        hputs.clock, hputs.capacity, hputs.evictions⟩
    · rw [hsave]
      exact (Follows.evicted e victim).of_regions hregions hclock

theorem Sound.writeThrough_lands {c : Setup} (h : e.Sound c 0) (hpositive : 0 < c.capacity)
    (entry : Entry) : e.Lands ⟨entry.region, entry.key⟩ (e.writeThrough entry) := by
  have hstill := creationTime_still entry.region entry.key e
  obtain ⟨hsound, -⟩ := KeepsBooks.creationTime entry.region entry.key e c h 0
  beta_reduce at hsound
  unfold writeThrough
  cases hcreated : e.creationTime entry.region entry.key with
  | mk created e₁ =>
    rw [hcreated] at hstill hsound
    dsimp only at hstill hsound ⊢
    cases hwas : e₁.isResident entry.region entry.key with
    | true =>
      simp only [if_true, Bool.not_true, Bool.and_false]
      exact hstill.lands (saveRow_lands_resident hwas)
    | false =>
      simp only [Bool.false_eq_true, if_false, Bool.not_false, Bool.and_true]
      obtain ⟨claimed, hreserve, hlands⟩ := hsound.reserve_lands hpositive
        { entry with createdAt := created.getD entry.createdAt, resident := false } hwas
      rw [hreserve]
      exact hstill.lands hlands

/-- A write leaves its key in memory, or fails. -/
theorem Sound.put_lands {c : Setup} (h : e.Sound c 0) (hpositive : 0 < c.capacity) (entry : Entry) :
    e.Lands ⟨entry.region, entry.key⟩ (e.put entry) := by
  have hlands := (Still.ensureRegion e entry.region).lands <|
    (h.ensureRegion entry.region).writeThrough_lands hpositive entry
  unfold put
  cases hwrite : (e.ensureRegion entry.region).writeThrough entry with
  | mk reply e₁ =>
    rw [hwrite] at hlands
    cases reply with
    | error err => exact hlands
    | ok written => exact Places.then_still hlands (.announce _ _ _ _ _)

end Engine
end TierCache
