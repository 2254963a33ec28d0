import TierCache.Proofs.Flat.Mirror

/-!
Reads of an engine that mirrors a flat cache: they see the visible rows, whichever tier an entry comes
from, and leave the rows as they are.
-/
namespace TierCache
open Std

/-- The entry found is a copy of the row that is visible, if there is one. -/
structure Found (found : Option Entry) (f : Flat) (now : Nat) (region key : String) : Prop where
  row : found.map Entry.row = f.visible? now region key
  ofRegion {entry : Entry} (h : found = some entry) : entry.region = region
  ofKey {entry : Entry} (h : found = some entry) : entry.key = key

namespace Found

variable {found : Option Entry} {f : Flat} {now : Nat} {region key : String}

theorem isSome (h : Found found f now region key) :
    found.isSome = (f.visible? now region key).isSome := by
  rw [← h.row, Option.isSome_map]

theorem visible {entry : Entry} (h : Found (some entry) f now region key) :
    f.visible? now region key = some entry.row := h.row.symm

theorem invisible (h : Found none f now region key) : f.visible? now region key = none :=
  h.row.symm

/-- What is visible is a row. -/
theorem copies {entry : Entry} (h : Found (some entry) f now region key) :
    entry.Copies f.rows region key :=
  ⟨h.ofRegion rfl, h.ofKey rfl, (Option.filter_eq_some_iff.mp h.visible).1⟩

end Found

/-- A copy of a row that is not expired is what there is to find, an expired one is nothing. -/
theorem Entry.Copies.found {entry : Entry} {f : Flat} {region key : String}
    (h : entry.Copies f.rows region key) (now : Nat) :
    Found (if entry.isExpired now then none else some entry) f now region key := by
  have hrow : f.row? region key = some entry.row := h.ofRow
  cases hexp : entry.isExpired now with
  | true =>
    refine ⟨?_, by simp, by simp⟩
    simp [Flat.visible?, hrow, Option.filter_some, Entry.isVisible_row, hexp]
  | false =>
    refine ⟨?_, ?_, ?_⟩
    · simp [Flat.visible?, hrow, Option.filter_some, Entry.isVisible_row, hexp]
    · rintro _ ⟨⟩
      exact h.ofRegion
    · rintro _ ⟨⟩
      exact h.ofKey

/-- An engine's operation answers as that of the flat cache does, and both go on alike. -/
def Simulates {σ α : Type} (stands : σ → Table → Prop) (op : Engine σ → α × Engine σ)
    (spec : Flat → α × Flat) : Prop :=
  ∀ {e : Engine σ} {f : Flat}, Mirrors stands e f →
    (op e).1 = (spec f).1 ∧ Mirrors stands (op e).2 (spec f).2

namespace Mirrors

variable {σ : Type} {stands : σ → Table → Prop} {e : Engine σ} {f : Flat}

theorem countHit (h : Mirrors stands e f) :
    Mirrors stands { e with stats := e.stats.hit } { f with hits := f.hits + 1 } :=
  ⟨h.stored, h.known, h.copied, h.defaultRegion, congrArg (· + 1) h.hits, h.misses, h.told⟩

theorem countMiss (h : Mirrors stands e f) :
    Mirrors stands { e with stats := e.stats.miss } { f with misses := f.misses + 1 } :=
  ⟨h.stored, h.known, h.copied, h.defaultRegion, h.hits, congrArg (· + 1) h.misses, h.told⟩

section
variable [Store σ] (reliable : Reliable stands)
include reliable

theorem loadLive (h : Mirrors stands e f) (now : Nat) (region key : String) :
    ∃ found s, TierCache.loadLive now region key e.store = (found, s) ∧
      Found found f now region key ∧ Mirrors stands { e with store := s } f := by
  obtain ⟨t, hstands, holds⟩ := h.stored
  obtain ⟨s, hload, hs⟩ := reliable.load hstands region key
  have hm : Mirrors stands { e with store := s } f := h.withStore ⟨t, hs, holds⟩
  have hrow := holds.rows ⟨region, key⟩
  cases hget : t.get? region key with
  | none =>
    refine ⟨none, s, by simp only [TierCache.loadLive, hload, hget], ⟨?_, by simp, by simp⟩, hm⟩
    rw [show t.rows[RowId.mk region key]? = none from hget] at hrow
    exact (Flat.visible?_of_row_none hrow.symm now).symm
  | some entry =>
    refine ⟨if entry.isExpired now then none else some entry, s, ?_, ?_, hm⟩
    · simp only [TierCache.loadLive, hload, hget]
    obtain ⟨hregion, hkey⟩ := holds.named hget
    rw [show t.rows[RowId.mk region key]? = some entry from hget] at hrow
    exact Entry.Copies.found ⟨hregion, hkey, hrow.symm⟩ now

theorem peek (h : Mirrors stands e f) (now : Nat) (region key : String) :
    ∃ found s, e.peek now region key = (found, { e with store := s }) ∧
      Found found f now region key ∧ Mirrors stands { e with store := s } f := by
  obtain ⟨found, s, hload, hfound, hm⟩ := h.loadLive reliable now region key
  cases hregion : e.region? region with
  | none => exact ⟨found, s, by simp only [Engine.peek, hregion, hload], hfound, hm⟩
  | some state =>
    cases hmem : state.memory[key]? with
    | none =>
      exact ⟨found, s, by simp only [Engine.peek, hregion, Region.peek, hmem, hload], hfound, hm⟩
    | some entry =>
      have hcopy : entry.Copies f.rows region key :=
        h.copied (by rw [Engine.regionD_of_region? hregion, hmem])
      refine ⟨_, e.store, ?_, hcopy.found now, h⟩
      simp only [Engine.peek, hregion, Region.peek, hmem]

theorem readEntry (h : Mirrors stands e f) (now : Nat) (region key : String) :
    ∃ found e', e.readEntry now region key = (found, e') ∧ Found found f now region key ∧
      Mirrors stands e' f := by
  cases hmem : (e.regionD region).memory[key]? with
  | some entry =>
    have hcopy := h.copied hmem
    cases hexp : entry.isExpired now with
    | true =>
      refine ⟨none, e, by simp only [Engine.readEntry, hmem, hexp, if_true], ?_, h⟩
      simpa [hexp] using hcopy.found now
    | false =>
      have htouched : (entry.touch now).Copies f.rows region key := ⟨hcopy.1, hcopy.2, hcopy.3⟩
      have hfound := htouched.found now
      rw [show (entry.touch now).isExpired now = false from hexp] at hfound
      refine ⟨_, _, rfl, ?_⟩
      simp only [hmem, hexp, Bool.false_eq_true, if_false]
      exact ⟨hfound, h.hold htouched⟩
  | none =>
    obtain ⟨found, s, hload, hfound, hm⟩ := h.loadLive reliable now region key
    cases found with
    | none =>
      exact ⟨none, _, by simp only [Engine.readEntry, hmem, hload], hfound, hm⟩
    | some entry =>
      have hcopy := hfound.copies
      -- the copy that is given back differs from the row in its time of use and its place alone
      have hseen (place : Bool) :
          ({ entry.touch now with resident := place } : Entry).Copies f.rows region key :=
        ⟨hcopy.1, hcopy.2, hcopy.3⟩
      have hlive (place : Bool) :
          Found (some { entry.touch now with resident := place }) f now region key :=
        ⟨hfound.row, by rintro _ ⟨⟩; exact hcopy.1, by rintro _ ⟨⟩; exact hcopy.2⟩
      have htry := hm.tryReserve
      cases hres : { e with store := s }.tryReserve with
      | mk granted e₁ =>
        rw [hres] at htry
        cases granted with
        | false =>
          refine ⟨_, _, rfl, ?_⟩
          simp only [hmem, hload, hres]
          exact ⟨hlive false, htry⟩
        | true =>
          refine ⟨_, _, rfl, ?_⟩
          simp only [hmem, hload, hres]
          exact ⟨hlive _, htry.install (hseen true) true⟩

theorem getEntry (h : Mirrors stands e f) (now : Nat) (region key : String) :
    ∃ found e', e.getEntry now region key = (found, e') ∧ Found found f now region key ∧
      Mirrors stands e' f := by
  cases hregion : e.region? region with
  | some state =>
    obtain ⟨found, e', heq, hfound, hm⟩ := h.readEntry reliable now region key
    exact ⟨found, e', by simp only [Engine.getEntry, hregion, heq], hfound, hm⟩
  | none =>
    obtain ⟨found, s, hload, hfound, hm⟩ := h.loadLive reliable now region key
    cases found with
    | none => exact ⟨none, _, by simp only [Engine.getEntry, hregion, hload], hfound, hm⟩
    | some entry =>
      obtain ⟨seen, e', heq, hseen, hm'⟩ :=
        (hm.ensureRegion region).readEntry reliable now region key
      exact ⟨seen, e', by simp only [Engine.getEntry, hregion, hload, heq], hseen, hm'⟩

/-! ### Replies -/

theorem get (now : Nat) (region key : String) :
    Simulates stands (·.get now region key) (·.get now region key) := by
  intro e f h
  obtain ⟨found, e', hget, hfound, hm⟩ := h.getEntry reliable now region key
  simp only [Engine.get, Flat.get, hget, ← hfound.row]
  cases found with
  | none => exact ⟨rfl, hm.countMiss⟩
  | some entry =>
    obtain ⟨_, _, value, _, _, _, _⟩ := entry
    cases value with
    | string text => exact ⟨rfl, hm.countHit⟩
    | _ => exact ⟨rfl, hm.countMiss⟩

theorem read (now : Nat) (region key : String) :
    Simulates stands (fun e => ((e.getEntry now region key).1.map Entry.row,
      (e.getEntry now region key).2)) (fun f => (f.visible? now region key, f)) := by
  intro e f h
  obtain ⟨found, e', hget, hfound, hm⟩ := h.getEntry reliable now region key
  simp only [hget]
  exact ⟨hfound.row, hm⟩

theorem ttl (now : Nat) (region key : String) :
    Simulates stands (·.ttl now region key)
      (fun f => ((f.visible? now region key).elim (-2) (·.secondsLeft now), f)) := by
  intro e f h
  obtain ⟨found, s, hpeek, hfound, hm⟩ := h.peek reliable now region key
  simp only [Engine.ttl, hpeek, ← hfound.row]
  refine ⟨?_, hm⟩
  cases found with
  | none => rfl
  | some entry => exact (entry.secondsLeft_row now).symm

theorem typeOf (now : Nat) (region key : String) :
    Simulates stands (·.typeOf now region key)
      (fun f => ((f.visible? now region key).map (·.value.dataType), f)) := by
  intro e f h
  obtain ⟨found, s, hpeek, hfound, hm⟩ := h.peek reliable now region key
  simp only [Engine.typeOf, hpeek, ← hfound.row, Option.map_map]
  exact ⟨rfl, hm⟩

theorem countLive (h : Mirrors stands e f) (now : Nat) (region : String) (keys : List String) :
    ∃ s, e.countLive now region keys =
        (keys.countP fun key => (f.visible? now region key).isSome, { e with store := s }) ∧
      Mirrors stands { e with store := s } f := by
  induction keys generalizing e with
  | nil => exact ⟨e.store, rfl, h⟩
  | cons key rest ih =>
    rw [Engine.countLive, List.countP_cons]
    cases hknown : (e.regionD region).known.contains key with
    | false =>
      obtain ⟨s, heq, hm⟩ := ih h
      have hrow : f.row? region key = none := by
        have := h.known region key
        rw [hknown] at this
        simpa using this.symm
      refine ⟨s, ?_, hm⟩
      simpa [Flat.visible?_of_row_none hrow] using heq
    | true =>
      obtain ⟨found, s, hpeek, hfound, hm⟩ := h.peek reliable now region key
      obtain ⟨s', heq, hm'⟩ := ih hm
      refine ⟨s', ?_, hm'⟩
      simp only [hpeek, heq, hfound.isSome, if_true, Nat.add_comm]

theorem exists? (now : Nat) (region : String) (keys : List String) :
    Simulates stands (·.exists? now region keys)
      (fun f => (keys.countP fun key => (f.visible? now region key).isSome, f)) := by
  intro e f h
  cases hregion : e.region? region with
  | none =>
    have hcount : keys.countP (fun key => (f.visible? now region key).isSome) = 0 := by
      simp [Flat.visible?_of_row_none (h.row_none hregion _)]
    simp only [Engine.exists?, hregion, hcount]
    exact ⟨trivial, h⟩
  | some state =>
    obtain ⟨s, heq, hm⟩ := h.countLive reliable now region keys
    simp only [Engine.exists?, hregion, heq]
    exact ⟨trivial, hm⟩

theorem filterLive (h : Mirrors stands e f) (now : Nat) (region : String) (keys : List String) :
    ∃ s, e.filterLive now region keys =
        (keys.filter fun key => (f.visible? now region key).isSome, { e with store := s }) ∧
      Mirrors stands { e with store := s } f := by
  induction keys generalizing e with
  | nil => exact ⟨e.store, rfl, h⟩
  | cons key rest ih =>
    obtain ⟨found, s, hpeek, hfound, hm⟩ := h.peek reliable now region key
    obtain ⟨s', heq, hm'⟩ := ih hm
    refine ⟨s', ?_, hm'⟩
    simp only [Engine.filterLive, hpeek, heq, hfound.isSome, List.filter_cons]

theorem keys (now : Nat) (region pattern : String) :
    Simulates stands (·.keys now region pattern) (fun f => (f.keys now region pattern, f)) := by
  intro e f h
  cases hregion : e.region? region with
  | none =>
    have hkeys : f.keys now region pattern = [] := by
      rw [List.eq_nil_iff_forall_not_mem]
      intro key hmem
      have hvisible := ((f.mem_keys now region pattern key).mp hmem).1
      simp [Flat.visible?_of_row_none (h.row_none hregion key)] at hvisible
    simp only [Engine.keys, hregion, hkeys]
    exact ⟨trivial, h⟩
  | some state =>
    obtain ⟨s, heq, hm⟩ := h.filterLive reliable now region
      (state.known.toList.filter (Glob.accepts pattern ·))
    simp only [Engine.keys, hregion, heq]
    refine ⟨?_, hm⟩
    apply Tree.eq_of_ordered ((state.known.ordered_toList.filter _).filter _)
      (f.keys_ordered now region pattern)
    intro key
    have hknown := h.known region key
    rw [Engine.regionD_of_region? hregion] at hknown
    have hthere : (f.visible? now region key).isSome → (f.row? region key).isSome :=
      Flat.isSome_of_visible
    simp only [List.mem_filter, ExtTreeSet.mem_toList, ← ExtTreeSet.contains_iff_mem, hknown,
      f.mem_keys]
    tauto

theorem scan (now : Nat) (region : String) (cursor : Nat) (pattern : String) (count : Nat) :
    Simulates stands (·.scan now region cursor pattern count)
      (fun f => (Engine.page (f.keys now region pattern) cursor count, f)) := by
  intro e f h
  obtain ⟨hkeys, hm⟩ := keys reliable now region pattern h
  exact ⟨congrArg (Engine.page · cursor count) hkeys, hm⟩

end
end Mirrors
end TierCache
