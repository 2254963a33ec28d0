import TierCache.Proofs.Engine.Regions
import TierCache.Proofs.Lru

/-!
The books of memory: the slots taken are the entries in memory and the slots that are claimed for
entries to come, and each region's order of use goes over the keys it has in memory.
-/
namespace TierCache
open Std

namespace Engine

variable {σ : Type}

/-- The orders of use: of each region over its keys in memory, by ticks that no two keys share. -/
structure Ordered (e : Engine σ) : Prop where
  tracked (region key : String) :
    (e.regionD region).memory.contains key = (e.regionD region).lru.stamps.contains key
  inverse (region : String) : (e.regionD region).lru.Inverse
  past {region key : String} {tick : Nat} (h : (e.regionD region).lru.stamps[key]? = some tick) :
    tick ≤ e.clock
  distinct {region other key name : String} {tick : Nat}
    (h : (e.regionD region).lru.stamps[key]? = some tick)
    (h' : (e.regionD other).lru.stamps[name]? = some tick) : region = other ∧ key = name

/-- What an engine is made with, for good. -/
structure Setup where
  capacity : Nat
  defaultRegion : String

def setup (e : Engine σ) : Setup := ⟨e.capacity, e.defaultRegion⟩

/-- The slots taken are those of the entries in memory and those that are claimed for others, and not
more than the capacity. -/
structure Sound (e : Engine σ) (setup : Setup) (claimed : Nat) : Prop extends Ordered e where
  setup : e.setup = setup
  resident : e.resident = e.residents + claimed
  bounded : e.resident ≤ e.capacity

/-- An engine whose last uses are no later, and in another order in one region only by later uses. -/
theorem Ordered.setRegion {e : Engine σ} (h : e.Ordered) {region : String} {s : Region}
    {clock : Nat} (hclock : e.clock ≤ clock)
    (tracked : ∀ key, s.memory.contains key = s.lru.stamps.contains key)
    (inverse : s.lru.Inverse)
    (stamps : ∀ (key : String) (tick : Nat), s.lru.stamps[key]? = some tick →
      (e.regionD region).lru.stamps[key]? = some tick ∨ e.clock < tick ∧ tick ≤ clock) :
    ({ e.setRegion region s with clock } : Engine σ).Ordered := by
  have hregion (other : String) : ({ e.setRegion region s with clock } : Engine σ).regionD other =
      if region = other then s else e.regionD other := e.regionD_setRegion region other s
  have hnew {key other name : String} {tick : Nat} (hne : region ≠ other)
      (hs : s.lru.stamps[key]? = some tick)
      (hold : (e.regionD other).lru.stamps[name]? = some tick) : False := by
    obtain hsame | ⟨hlater, -⟩ := stamps key tick hs
    · exact hne (h.distinct hsame hold).1
    · exact absurd (h.past hold) (Nat.not_le.mpr hlater)
  refine ⟨?_, ?_, ?_, ?_⟩
  · intro other key
    rw [hregion]
    split
    · exact tracked key
    · exact h.tracked other key
  · intro other
    rw [hregion]
    split
    · exact inverse
    · exact h.inverse other
  · intro other key tick hs
    rw [hregion] at hs
    split at hs
    · obtain hsame | ⟨-, hle⟩ := stamps key tick hs
      · exact Nat.le_trans (h.past hsame) hclock
      · exact hle
    · exact Nat.le_trans (h.past hs) hclock
  · intro home other key name tick hs hs'
    rw [hregion] at hs hs'
    split at hs
    · rename_i hhome
      split at hs'
      · rename_i hother
        exact ⟨hhome.symm.trans hother, inverse.key_unique hs hs'⟩
      · rename_i hother
        exact (hnew hother hs hs').elim
    · rename_i hhome
      split at hs'
      · exact (hnew hhome hs' hs).elim
      · exact h.distinct hs hs'

theorem tryReserve_cases (e : Engine σ) :
    (e.resident < e.capacity ∧ e.tryReserve = (true, { e with resident := e.resident + 1 })) ∨
    (e.capacity ≤ e.resident ∧ e.tryReserve = (false, e)) := by
  unfold tryReserve
  split
  · exact .inl ⟨‹_›, rfl⟩
  · exact .inr ⟨Nat.not_lt.mp ‹_›, rfl⟩

namespace Sound

variable {e : Engine σ} {c : Setup} {n : Nat} {reserved : Bool}

theorem capacity (h : e.Sound c n) : e.capacity = c.capacity := congrArg Setup.capacity h.setup

theorem defaultRegion (h : e.Sound c n) : e.defaultRegion = c.defaultRegion :=
  congrArg Setup.defaultRegion h.setup

/-- Only the regions, the clock, the count and the setup matter. -/
theorem of_eq (h : e.Sound c n) {later : Engine σ} (regions : later.regions = e.regions)
    (clock : later.clock = e.clock) (resident : later.resident = e.resident)
    (setup : later.setup = e.setup) : later.Sound c n := by
  obtain ⟨_, _, _, _, _, _, _, _⟩ := later
  obtain ⟨hcapacity, hdefault⟩ := Setup.mk.inj setup
  simp only at regions clock resident hcapacity hdefault
  subst regions clock resident hcapacity hdefault
  exact ⟨⟨h.tracked, h.inverse, h.past, h.distinct⟩, h.setup, h.resident, h.bounded⟩

theorem fresh (store : σ) (capacity : Nat) (defaultRegion : String) :
    (Engine.fresh store capacity defaultRegion).Sound ⟨capacity, defaultRegion⟩ 0 := by
  refine ⟨⟨?_, ?_, ?_, ?_⟩, rfl, ?_, Nat.zero_le _⟩
  · intro region key
    simp
  · intro region
    rw [regionD_fresh]
    exact Lru.inverse_empty
  · intro region key tick hs
    simp at hs
  · intro region other key name tick hs
    simp at hs
  · rw [residents_fresh]
    rfl

/-- A region changes, and with it the count and what is claimed. -/
theorem rewrite (h : e.Sound c n) {region : String} {s : Region} {clock resident m : Nat}
    (hclock : e.clock ≤ clock)
    (tracked : ∀ key, s.memory.contains key = s.lru.stamps.contains key)
    (inverse : s.lru.Inverse)
    (stamps : ∀ (key : String) (tick : Nat), s.lru.stamps[key]? = some tick →
      (e.regionD region).lru.stamps[key]? = some tick ∨ e.clock < tick ∧ tick ≤ clock)
    (count : resident + (e.regionD region).memory.size + n = e.resident + s.memory.size + m)
    (bounded : resident ≤ e.capacity) :
    ({ e.setRegion region s with clock, resident } : Engine σ).Sound c m := by
  have hordered := h.toOrdered.setRegion hclock tracked inverse stamps
  have hresident := h.resident
  have hcount := e.residents_setRegion region s
  refine ⟨⟨hordered.tracked, hordered.inverse, hordered.past, hordered.distinct⟩, h.setup,
    ?_, bounded⟩
  change resident = (e.setRegion region s).residents + m
  omega

/-- What is known of a region is not on the books, nor are the contents of the entries. -/
theorem retell (h : e.Sound c n) {region : String} {s : Region}
    (lru : s.lru = (e.regionD region).lru)
    (keys : ∀ key, s.memory.contains key = (e.regionD region).memory.contains key)
    (size : s.memory.size = (e.regionD region).memory.size) :
    (e.setRegion region s).Sound c n := by
  apply h.rewrite (Nat.le_refl _)
  · intro key
    rw [keys, lru]
    exact h.tracked region key
  · rw [lru]
    exact h.inverse region
  · intro key tick hs
    rw [lru] at hs
    exact .inl hs
  · simp only [size]
  · exact h.bounded

theorem ensureRegion (h : e.Sound c n) (region : String) : (e.ensureRegion region).Sound c n := by
  obtain ⟨-, heq⟩ | ⟨hnone, heq⟩ := e.ensureRegion_cases region
  · rwa [heq]
  · rw [heq]
    have hempty := regionD_of_none hnone
    apply h.retell
    · rw [hempty]
    · rw [hempty]
      exact fun _ => rfl
    · rw [hempty]

/-! ### Claiming and giving back -/

theorem tryReserve (h : e.Sound c n) :
    e.tryReserve.2.Sound c (if e.tryReserve.1 then n + 1 else n) := by
  have hresident := h.resident
  obtain ⟨hroom, htry⟩ | ⟨-, htry⟩ := e.tryReserve_cases
  · rw [htry]
    refine ⟨⟨h.tracked, h.inverse, h.past, h.distinct⟩, h.setup, ?_, hroom⟩
    change e.resident + 1 = e.residents + (n + 1)
    omega
  · rw [htry]
    exact h

/-- A slot that is claimed can be given back. -/
theorem release (h : e.Sound c (n + 1)) : 0 < e.resident ∧ e.release.Sound c n := by
  have hresident := h.resident
  have hbounded := h.bounded
  refine ⟨by omega, ⟨h.tracked, h.inverse, h.past, h.distinct⟩, h.setup, ?_, ?_⟩
  · change e.resident - 1 = e.residents + n
    omega
  · change e.resident - 1 ≤ e.capacity
    omega

/-- An entry in memory takes a slot of those that are claimed, unless its key has one. -/
theorem hold (h : e.Sound c n) (region key : String) (entry : Entry) {m : Nat}
    (count : n = if (e.regionD region).memory.contains key then m else m + 1) :
    (e.hold region key entry).Sound c m := by
  apply h.rewrite (Nat.le_succ _)
  · intro other
    rw [Lru.stamps_touch, ExtTreeMap.contains_insert, ExtTreeMap.contains_insert, h.tracked]
  · apply (h.inverse region).touch
    intro other hs
    have := h.past hs
    omega
  · intro other tick hs
    rw [Lru.stamps_touch, Tree.get_insert] at hs
    split at hs
    · cases hs
      exact .inr ⟨Nat.lt_succ_self _, Nat.le_refl _⟩
    · exact .inl hs
  · have hsize : (e.regionD region).memory.size + n =
        ((e.regionD region).memory.insert key entry).size + m := by
      rw [ExtTreeMap.size_insert, count]
      split <;> omega
    change e.resident + (e.regionD region).memory.size + n =
      e.resident + ((e.regionD region).memory.insert key entry).size + m
    omega
  · exact h.bounded

/-- A key that goes out of memory leaves a slot that is claimed by no one any more. -/
theorem drop (h : e.Sound c n) (region key : String) (known : ExtTreeSet String)
    (hin : (e.regionD region).memory.contains key = true) :
    (e.setRegion region ⟨known, (e.regionD region).memory.erase key,
      (e.regionD region).lru.remove key⟩).Sound c (n + 1) := by
  apply h.rewrite (Nat.le_refl _)
  · intro other
    rw [Lru.stamps_remove, ExtTreeMap.contains_erase, ExtTreeMap.contains_erase, h.tracked]
  · exact (h.inverse region).remove key
  · intro other tick hs
    rw [Lru.stamps_remove, Tree.get_erase] at hs
    split at hs
    · cases hs
    · exact .inl hs
  · have hsize : (e.regionD region).memory.size ≠ 0 := by
      intro hzero
      rw [ExtTreeMap.eq_empty_iff_size_eq_zero.mpr hzero] at hin
      simp at hin
    simp only [ExtTreeMap.size_erase, hin, if_true]
    omega
  · exact h.bounded

/-- A key that is not in memory has no place in the order of use either. -/
theorem dropAbsent (h : e.Sound c n) (region key : String) (known : ExtTreeSet String)
    (hout : (e.regionD region).memory.contains key = false) :
    (e.setRegion region ⟨known, (e.regionD region).memory.erase key,
      (e.regionD region).lru.remove key⟩).Sound c n := by
  have hmemory : (e.regionD region).memory.erase key = (e.regionD region).memory :=
    Tree.erase_of_none _ (ExtTreeMap.getElem?_eq_none_of_contains_eq_false hout)
  have hstamp : (e.regionD region).lru.stamps[key]? = none := by
    rw [h.tracked] at hout
    exact ExtTreeMap.getElem?_eq_none_of_contains_eq_false hout
  have hlru : (e.regionD region).lru.remove key = (e.regionD region).lru := by
    rw [Lru.remove, hstamp]
  rw [hmemory, hlru]
  exact h.retell rfl (fun _ => rfl) rfl

/-- A claim that is made good. Without a claim the key has a slot, or one is claimed on the way. -/
theorem install (h : e.Sound c (if reserved then n + 1 else n)) (region : String) (entry : Entry) :
    (e.install region entry reserved).2.Sound c n := by
  unfold Engine.install
  split
  · rename_i hin
    have hheld := h.hold region entry.key entry (m := if reserved then n + 1 else n) (by simp [hin])
    dsimp only
    split
    · rename_i hreserved
      rw [if_pos hreserved] at hheld
      exact hheld.release.2
    · rename_i hreserved
      rwa [if_neg hreserved] at hheld
  · rename_i hout
    split
    · rename_i hreserved
      rw [if_pos hreserved] at h
      exact h.hold region entry.key entry (by simp [hout])
    · rename_i hreserved
      rw [if_neg hreserved] at h
      have htry := h.tryReserve
      have hsame : e.tryReserve.2.regionD region = e.regionD region := by
        unfold Engine.tryReserve
        split <;> rfl
      split
      · rename_i e' heq
        rw [heq] at htry hsame
        exact htry.hold region entry.key entry (by simp only at hsame; simp [hsame, hout])
      · rename_i heq
        rw [heq] at htry
        exact htry

/-! ### Making room -/

end Sound

theorem contend_eq_none (best : Option (String × String × Nat)) (row : String × Region) :
    contend best row = none ↔ best = none ∧ row.2.lru.oldest? = none := by
  unfold contend
  split <;> simp_all

/-- The winner is the best so far or the region's own least recently used entry. -/
theorem contend_eq_some {best : Option (String × String × Nat)} {row : String × Region}
    {v : String × String × Nat} (h : contend best row = some v) :
    best = some v ∨ row.1 = v.1 ∧ row.2.lru.oldest? = some v.2 := by
  unfold contend at h
  split at h
  · exact .inl h
  · rename_i heq
    cases h
    exact .inr ⟨rfl, heq⟩
  · rename_i heq
    unfold older at h
    split at h
    · cases h
      exact .inr ⟨rfl, heq⟩
    · exact .inl h

theorem foldl_contend_eq_none (rows : List (String × Region))
    (best : Option (String × String × Nat)) : rows.foldl contend best = none ↔
      best = none ∧ ∀ row ∈ rows, row.2.lru.oldest? = none := by
  induction rows generalizing best with
  | nil => simp
  | cons row rest ih =>
    rw [List.foldl_cons, ih, contend_eq_none, List.forall_mem_cons, and_assoc]

theorem foldl_contend_eq_some {rows : List (String × Region)}
    {best : Option (String × String × Nat)} {v : String × String × Nat}
    (h : rows.foldl contend best = some v) :
    best = some v ∨ ∃ row ∈ rows, row.1 = v.1 ∧ row.2.lru.oldest? = some v.2 := by
  induction rows generalizing best with
  | nil => exact .inl h
  | cons row rest ih =>
    obtain hwon | ⟨other, hmem, hother⟩ := ih h
    · obtain hbest | hrow := contend_eq_some hwon
      · exact .inl hbest
      · exact .inr ⟨row, .head rest, hrow⟩
    · exact .inr ⟨other, .tail row hmem, hother⟩

namespace Sound

variable {e : Engine σ} {c : Setup} {n : Nat}

/-- Without a victim memory is empty. -/
theorem residents_of_victim_none (h : e.Sound c n) (hnone : e.victim? = none) : e.residents = 0 := by
  have hold := ((foldl_contend_eq_none e.regions.toList none).mp hnone).2
  have hempty : (e.regions.toList.map fun row => row.2.memory.size) =
      e.regions.toList.map fun _ => 0 := by
    apply List.map_congr_left
    rintro ⟨region, s⟩ hrow
    have hregion : e.region? region = some s :=
      ExtTreeMap.mem_toList_iff_getElem?_eq_some.mp hrow
    have hinverse := h.inverse region
    have htracked := h.tracked region
    rw [regionD_of_region? hregion] at hinverse htracked
    have hmemory : s.memory = ∅ := by
      apply ExtTreeMap.ext_getElem?
      intro key
      have hstamp := hinverse.stamps_of_oldest_none (hold _ hrow) key
      have hout : s.memory.contains key = false := by
        rw [htracked, ExtTreeMap.contains_eq_isSome_getElem?, hstamp]
        rfl
      rw [ExtTreeMap.getElem?_eq_none_of_contains_eq_false hout, ExtTreeMap.getElem?_empty]
    simp [hmemory]
  rw [residents, total, Tree.sum_eq, hempty]
  simp

/-- The victim is in memory. -/
theorem victim_resident (h : e.Sound c n) {region key : String} {tick : Nat}
    (hvictim : e.victim? = some (region, key, tick)) :
    (e.regionD region).memory.contains key = true := by
  obtain hnone | ⟨⟨home, s⟩, hrow, rfl, hold⟩ := foldl_contend_eq_some hvictim
  · cases hnone
  · have hregion : e.region? home = some s :=
      ExtTreeMap.mem_toList_iff_getElem?_eq_some.mp hrow
    have hinverse := h.inverse home
    rw [regionD_of_region? hregion] at hinverse
    rw [h.tracked, regionD_of_region? hregion, ExtTreeMap.contains_eq_isSome_getElem?,
      hinverse.stamps_oldest hold]
    rfl

/-- Memory gives up one entry, unless it holds none. -/
theorem evictOne_cases (h : e.Sound c n) :
    (e.residents = 0 ∧ e.evictOne = (false, e)) ∨
    ∃ e', e.evictOne = (true, e') ∧ e'.Sound c n ∧ e'.resident + 1 = e.resident ∧
      e'.capacity = e.capacity ∧ e'.stats.evictions = e.stats.evictions + 1 := by
  cases hvictim : e.victim? with
  | none =>
    refine .inl ⟨h.residents_of_victim_none hvictim, ?_⟩
    simp only [evictOne, hvictim]
  | some victim =>
    obtain ⟨region, key, tick⟩ := victim
    have hin := h.victim_resident hvictim
    obtain ⟨hpos, hfreed⟩ := (h.drop region key (e.regionD region).known hin).release
    simp only [setRegion_resident] at hpos
    have heq : e.evictOne = (true, { (e.setRegion region ⟨(e.regionD region).known,
        (e.regionD region).memory.erase key, (e.regionD region).lru.remove key⟩).release with
        stats := e.stats.evict }) := by
      simp only [evictOne, hvictim, hin, if_true]
      rfl
    refine .inr ⟨_, heq, ?_, ?_, rfl, rfl⟩
    · exact hfreed.of_eq rfl rfl rfl rfl
    · change e.resident - 1 + 1 = e.resident
      omega

/-- Whatever the fuel, a slot is claimed after one eviction at most. None is to be had only when all
slots are claimed. -/
theorem reserve_cases (h : e.Sound c n) :
    (e.residents = 0 ∧ e.resident = e.capacity ∧
      ∀ fuel, e.reserveWithin (fuel + 1) = (false, e)) ∨
    ∃ e', (∀ fuel, e.reserveWithin (fuel + 1) = (true, e')) ∧ e'.Sound c (n + 1) ∧
      e'.stats.evictions ≤ e.stats.evictions + 1 := by
  have hbounded := h.bounded
  obtain ⟨-, htry⟩ | ⟨hfull, htry⟩ := e.tryReserve_cases
  · refine .inr ⟨{ e with resident := e.resident + 1 }, fun fuel => ?_, ?_, Nat.le_succ _⟩
    · simp only [reserveWithin, htry]
    have hsound := h.tryReserve
    rwa [htry] at hsound
  · obtain ⟨hempty, hevict⟩ | ⟨e₁, hevict, hsound, hfreed, hcapacity, hevictions⟩ := h.evictOne_cases
    · refine .inl ⟨hempty, by omega, fun fuel => ?_⟩
      simp only [reserveWithin, htry, hevict]
    · have htry₁ : e₁.tryReserve = (true, { e₁ with resident := e₁.resident + 1 }) := by
        rw [Engine.tryReserve, if_pos (by omega)]
      have hclaimed := hsound.tryReserve
      rw [htry₁] at hclaimed
      refine .inr ⟨{ e₁ with resident := e₁.resident + 1 }, fun fuel => ?_, hclaimed, Nat.le_of_eq hevictions⟩
      cases fuel with
      | zero => simp only [reserveWithin, htry, hevict, htry₁]
      | succ fuel => simp only [reserveWithin, htry, hevict, htry₁]

theorem reserveWithin_eq (h : e.Sound c n) (fuel : Nat) :
    e.reserveWithin (fuel + 1) = e.reserve := by
  obtain ⟨-, -, hnone⟩ | ⟨e', hsome, -⟩ := h.reserve_cases
  · rw [Engine.reserve, hnone, hnone]
  · rw [Engine.reserve, hsome, hsome]

/-- A claim by a write: true when there is a slot, which is then claimed. -/
theorem reserve (h : e.Sound c n) : e.reserve.2.Sound c (if e.reserve.1 then n + 1 else n) := by
  obtain ⟨-, -, hnone⟩ | ⟨e', hsome, hsound, -⟩ := h.reserve_cases
  · rw [Engine.reserve, hnone]
    exact h
  · rw [Engine.reserve, hsome]
    exact hsound

end Sound
end Engine
end TierCache
