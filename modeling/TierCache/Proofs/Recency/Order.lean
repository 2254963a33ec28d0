import TierCache.Proofs.Engine.Memory
import TierCache.Proofs.Engine.Slots
import TierCache.RowId

/-!
The order of use against the history of touches. A stamp is only a tick; what the ticks of all regions
together say is whose last touch came later, and the entry that has to make room is the one whose last
touch came first.
-/
namespace TierCache
open Std

/-- The last touch of `a` came before the last touch of `b`. -/
def Sooner (history : List RowId) (a b : RowId) : Prop :=
  ∃ earlier later, history = earlier ++ a :: later ∧ a ∉ later ∧ b ∈ later

theorem Sooner.mem {history : List RowId} {a b : RowId} (h : Sooner history a b) : a ∈ history := by
  obtain ⟨earlier, later, rfl, -, -⟩ := h
  exact List.mem_append_right _ List.mem_cons_self

theorem sooner_cons {history : List RowId} {a b touch : RowId} :
    Sooner (touch :: history) a b ↔
      touch = a ∧ a ∉ history ∧ b ∈ history ∨ Sooner history a b := by
  constructor
  · rintro ⟨earlier, later, heq, hlast, hlater⟩
    cases earlier with
    | nil =>
      obtain ⟨rfl, rfl⟩ := List.cons.inj heq
      exact .inl ⟨rfl, hlast, hlater⟩
    | cons first earlier => exact .inr ⟨earlier, later, (List.cons.inj heq).2, hlast, hlater⟩
  · rintro (⟨rfl, hlast, hlater⟩ | ⟨earlier, later, rfl, hlast, hlater⟩)
    · exact ⟨[], history, rfl, hlast, hlater⟩
    · exact ⟨touch :: earlier, later, rfl, hlast, hlater⟩

instance decidableSooner (a b : RowId) : (history : List RowId) → Decidable (Sooner history a b)
  | [] => isFalse fun h => List.not_mem_nil h.mem
  | _ :: history => have := decidableSooner a b history; decidable_of_iff _ sooner_cons.symm

/-- The oldest key has the least tick. -/
theorem Lru.Inverse.oldest_le {l : Lru} (h : l.Inverse) {key other : String} {tick seen : Nat}
    (hold : l.oldest? = some (key, tick)) (hs : l.stamps[other]? = some seen) : tick ≤ seen := by
  obtain ⟨least, hmin, hmap⟩ := Option.bind_eq_some_iff.mp hold
  obtain ⟨name, -, heq⟩ := Option.map_eq_some_iff.mp hmap
  obtain ⟨rfl, rfl⟩ := Prod.mk.inj heq
  have hin : seen ∈ l.order := by
    rw [ExtTreeMap.mem_iff_isSome_getElem?, (h other seen).mp hs]
    rfl
  have hle := ExtTreeMap.minKey?_le_of_mem hin rfl
  simp only [hmin, Option.get_some] at hle
  exact Nat.isLE_compare.mp hle

namespace Engine

variable {σ : Type} {e : Engine σ}

/-- The tick of the last use of a key. -/
def stamp? (e : Engine σ) (id : RowId) : Option Nat := (e.regionD id.region).lru.stamps[id.key]?

def inMemory (e : Engine σ) (id : RowId) : Bool := e.isResident id.region id.key

def knows (e : Engine σ) (id : RowId) : Bool := (e.regionD id.region).known.contains id.key

theorem Ordered.isSome_stamp? (h : e.Ordered) (id : RowId) : (e.stamp? id).isSome = e.inMemory id := by
  rw [stamp?, ← ExtTreeMap.contains_eq_isSome_getElem?, ← h.tracked]
  rfl

theorem Ordered.stamp?_of_inMemory (h : e.Ordered) {id : RowId} (hin : e.inMemory id = true) :
    ∃ tick, e.stamp? id = some tick :=
  Option.isSome_iff_exists.mp ((h.isSome_stamp? id).trans hin)

theorem stamp?_setRegion (e : Engine σ) (region : String) (s : Region) (id : RowId) :
    (e.setRegion region s).stamp? id =
      if region = id.region then s.lru.stamps[id.key]? else e.stamp? id := by
  rw [stamp?, regionD_setRegion]
  split <;> rfl

theorem inMemory_setRegion (e : Engine σ) (region : String) (s : Region) (id : RowId) :
    (e.setRegion region s).inMemory id =
      if region = id.region then s.memory.contains id.key else e.inMemory id := by
  rw [inMemory, isResident, regionD_setRegion]
  split <;> rfl

theorem stamp?_of_regions {e' : Engine σ} (h : e'.regions = e.regions) (id : RowId) :
    e'.stamp? id = e.stamp? id := by
  rw [stamp?, regionD_of_regions h]
  rfl

theorem inMemory_of_regions {e' : Engine σ} (h : e'.regions = e.regions) (id : RowId) :
    e'.inMemory id = e.inMemory id := by
  rw [inMemory, isResident, regionD_of_regions h]
  rfl

theorem knows_of_regions {e' : Engine σ} (h : e'.regions = e.regions) (id : RowId) :
    e'.knows id = e.knows id := by
  rw [knows, regionD_of_regions h]
  rfl

theorem stamp?_know (e : Engine σ) (region key : String) (id : RowId) :
    (e.know region key).stamp? id = e.stamp? id := by
  rw [know, stamp?_setRegion]
  split
  · rename_i hregion
    rw [hregion]
    rfl
  · rfl

theorem inMemory_know (e : Engine σ) (region key : String) (id : RowId) :
    (e.know region key).inMemory id = e.inMemory id := by
  rw [inMemory, isResident, e.memory_know]
  rfl

theorem knows_know (e : Engine σ) (region key : String) {id : RowId} (hne : id ≠ ⟨region, key⟩) :
    (e.know region key).knows id = e.knows id := by
  have hknown := e.known_know region key id.region id.key
  have hname : ¬(region = id.region ∧ key = id.key) := by
    rintro ⟨rfl, rfl⟩
    exact hne rfl
  rw [or_iff_right hname, ← Bool.eq_iff_iff] at hknown
  exact hknown

/-- An entry was put into memory or used: its key has the next tick, and all other keys are as
before. -/
structure Puts (e : Engine σ) (id : RowId) (e' : Engine σ) : Prop where
  stamps (other : RowId) :
    e'.stamp? other = if other = id then some (e.clock + 1) else e.stamp? other
  memory (other : RowId) : e'.inMemory other = (decide (other = id) || e.inMemory other)
  known {other : RowId} (hne : other ≠ id) : e'.knows other = e.knows other
  clock : e'.clock = e.clock + 1
  capacity : e'.capacity = e.capacity
  evictions : e'.stats.evictions = e.stats.evictions

theorem puts_hold (e : Engine σ) (region key : String) (entry : Entry) :
    e.Puts ⟨region, key⟩ (e.hold region key entry) := by
  refine ⟨?_, ?_, ?_, rfl, rfl, rfl⟩
  · rintro ⟨other, name⟩
    rw [show (e.hold region key entry).stamp? ⟨other, name⟩ = _ from stamp?_setRegion ..,
      Lru.stamps_touch]
    simp only [Tree.get_insert, RowId.mk.injEq, eq_comm (a := other), eq_comm (a := name)]
    by_cases hregion : region = other
    · subst hregion
      simp only [if_true, true_and]
      rfl
    · simp only [hregion, if_false, false_and]
  · rintro ⟨other, name⟩
    rw [show (e.hold region key entry).inMemory ⟨other, name⟩ = _ from inMemory_setRegion ..]
    by_cases hregion : region = other
    · subst hregion
      by_cases hkey : key = name
      · simp [hkey, ExtTreeMap.contains_insert]
      · simp [ExtTreeMap.contains_insert, hkey, Ne.symm hkey, inMemory, isResident]
    · simp [hregion, Ne.symm hregion]
  · intro other _
    rw [knows, known_hold]
    rfl

theorem Puts.of_regions {id : RowId} {e' e'' : Engine σ} (h : e.Puts id e')
    (regions : e''.regions = e'.regions) (clock : e''.clock = e'.clock)
    (capacity : e''.capacity = e'.capacity) (evictions : e''.stats.evictions = e'.stats.evictions) :
    e.Puts id e'' :=
  ⟨fun other => (stamp?_of_regions regions other).trans (h.stamps other),
    fun other => (inMemory_of_regions regions other).trans (h.memory other),
    fun hne => (knows_of_regions regions _).trans (h.known hne),
    clock.trans h.clock, capacity.trans h.capacity, evictions.trans h.evictions⟩

/-- An entry that has a slot is put into memory. -/
theorem puts_install (region : String) (entry : Entry) {reserved : Bool}
    (hslot : e.inMemory ⟨region, entry.key⟩ = true ∨ reserved = true) :
    e.Puts ⟨region, entry.key⟩ (e.install region entry reserved).2 := by
  have hheld := e.puts_hold region entry.key entry
  unfold install
  split
  · dsimp only
    split
    · exact hheld.of_regions rfl rfl rfl rfl
    · exact hheld
  · rename_i hout
    rw [if_pos (hslot.resolve_left hout)]
    exact hheld

/-- A key that is made known on the way is the one that is put into memory. -/
theorem Puts.of_know {region key : String} {e' : Engine σ}
    (h : (e.know region key).Puts ⟨region, key⟩ e') : e.Puts ⟨region, key⟩ e' := by
  refine ⟨fun other => ?_, fun other => ?_, fun hne => ?_, h.clock, h.capacity, h.evictions⟩
  · rw [h.stamps, e.stamp?_know]
    rfl
  · rw [h.memory, e.inMemory_know]
  · rw [h.known hne, e.knows_know region key hne]

/-! ### Stamps as a memory of touches -/

/-- The stamps tell whose last touch came later. -/
structure Recalls (e : Engine σ) (history : List RowId) : Prop where
  past {id : RowId} {tick : Nat} (h : e.stamp? id = some tick) : tick ≤ e.clock
  recent {id : RowId} {tick : Nat} (h : e.stamp? id = some tick) :
    ∃ earlier later, history = earlier ++ id :: later ∧ id ∉ later ∧
      ∀ other seen, e.stamp? other = some seen → (tick < seen ↔ other ∈ later)

namespace Recalls

variable {history : List RowId}

theorem fresh (store : σ) (capacity : Nat) (defaultRegion : String) :
    (Engine.fresh store capacity defaultRegion).Recalls [] := by
  constructor
  · intro id tick h
    simp [stamp?] at h
  · intro id tick h
    simp [stamp?] at h

/-- Stamps that are gone change nothing between those that are left. -/
theorem fade (h : e.Recalls history) {e' : Engine σ} (hclock : e.clock ≤ e'.clock)
    (hstamps : ∀ id tick, e'.stamp? id = some tick → e.stamp? id = some tick) :
    e'.Recalls history := by
  constructor
  · intro id tick hs
    exact Nat.le_trans (h.past (hstamps id tick hs)) hclock
  · intro id tick hs
    obtain ⟨earlier, later, heq, hlast, hlater⟩ := h.recent (hstamps id tick hs)
    exact ⟨earlier, later, heq, hlast, fun other seen hseen => hlater other seen (hstamps _ _ hseen)⟩

/-- The entry that is put into memory or used is the last one touched. -/
theorem puts (h : e.Recalls history) {id : RowId} {e' : Engine σ} (hputs : e.Puts id e') :
    e'.Recalls (history ++ [id]) := by
  constructor
  · intro other tick hs
    rw [hputs.stamps] at hs
    rw [hputs.clock]
    split at hs
    · cases hs
      exact Nat.le_refl _
    · exact Nat.le_succ_of_le (h.past hs)
  · intro other tick hs
    rw [hputs.stamps] at hs
    split at hs
    · rename_i hother
      cases hs
      refine ⟨history, [], by rw [hother], List.not_mem_nil, fun third seen hseen => ?_⟩
      rw [hputs.stamps] at hseen
      -- no key has a later stamp than the one touched last
      have hle : seen ≤ e.clock + 1 := by
        split at hseen
        · cases hseen
          exact Nat.le_refl _
        · exact Nat.le_succ_of_le (h.past hseen)
      exact iff_of_false (Nat.not_lt.mpr hle) List.not_mem_nil
    · rename_i hother
      obtain ⟨earlier, later, heq, hlast, hlater⟩ := h.recent hs
      refine ⟨earlier, later ++ [id], by rw [heq]; simp, by simp [hlast, hother], ?_⟩
      intro third seen hseen
      rw [hputs.stamps] at hseen
      split at hseen
      · rename_i hthird
        cases hseen
        exact iff_of_true (Nat.lt_succ_of_le (h.past hs)) (by simp [hthird])
      · rename_i hthird
        rw [hlater third seen hseen]
        simp [hthird]

theorem sooner (h : e.Recalls history) {a b : RowId} {tick seen : Nat} (ha : e.stamp? a = some tick)
    (hb : e.stamp? b = some seen) (hlt : tick < seen) : Sooner history a b := by
  obtain ⟨earlier, later, heq, hlast, hlater⟩ := h.recent ha
  exact ⟨earlier, later, heq, hlast, (hlater b seen hb).mp hlt⟩

end Recalls

/-! ### Who makes room -/

theorem older_le (a b : String × String × Nat) :
    (older a b).2.2 ≤ a.2.2 ∧ (older a b).2.2 ≤ b.2.2 := by
  unfold older
  split <;> omega

/-- The winner is no younger than those it competed with. -/
theorem contend_le {best : Option (String × String × Nat)} {row : String × Region}
    {v : String × String × Nat} (h : contend best row = some v) :
    (∀ b ∈ best, v.2.2 ≤ b.2.2) ∧ ∀ o ∈ row.2.lru.oldest?, v.2.2 ≤ o.2 := by
  unfold contend at h
  split at h
  · rename_i hnone
    rw [h, hnone]
    exact ⟨fun b hb => by cases hb; exact Nat.le_refl _, nofun⟩
  · rename_i key tick hold
    cases h
    rw [hold]
    exact ⟨nofun, fun o ho => by cases ho; exact Nat.le_refl _⟩
  · rename_i key tick best hold
    cases h
    rw [hold]
    obtain ⟨hbest, hrow⟩ := older_le best (row.1, key, tick)
    exact ⟨fun b hb => by cases hb; exact hbest, fun o ho => by cases ho; exact hrow⟩

theorem foldl_contend_le {rows : List (String × Region)} {best : Option (String × String × Nat)}
    {v : String × String × Nat} (h : rows.foldl contend best = some v) :
    (∀ b ∈ best, v.2.2 ≤ b.2.2) ∧ ∀ row ∈ rows, ∀ o ∈ row.2.lru.oldest?, v.2.2 ≤ o.2 := by
  induction rows generalizing best with
  | nil => exact ⟨fun b hb => by cases h.symm.trans hb; exact Nat.le_refl _, nofun⟩
  | cons row rest ih =>
    obtain ⟨hcontend, hrest⟩ := ih h
    cases hbest : contend best row with
    | none =>
      obtain ⟨rfl, hold⟩ := (contend_eq_none best row).mp hbest
      exact ⟨nofun, List.forall_mem_cons.mpr ⟨by simp [hold], hrest⟩⟩
    | some b =>
      obtain ⟨hle, hrow⟩ := contend_le hbest
      have hv := hcontend b hbest
      exact ⟨fun b' hb' => Nat.le_trans hv (hle b' hb'),
        List.forall_mem_cons.mpr ⟨fun o ho => Nat.le_trans hv (hrow o ho), hrest⟩⟩

/-- The victim's last use came first of all. -/
theorem Ordered.victim_le (h : e.Ordered) {region key : String} {tick : Nat}
    (hvictim : e.victim? = some (region, key, tick)) :
    e.stamp? ⟨region, key⟩ = some tick ∧
      ∀ id seen, e.stamp? id = some seen → tick ≤ seen := by
  have hrow (home : String) (s : Region) (hs : (home, s) ∈ e.regions.toList) :
      e.regionD home = s :=
    regionD_of_region? (ExtTreeMap.mem_toList_iff_getElem?_eq_some.mp hs)
  constructor
  · obtain hnone | ⟨⟨home, s⟩, hmem, rfl, hold⟩ := foldl_contend_eq_some hvictim
    · cases hnone
    · have hinverse := h.inverse home
      rw [hrow home s hmem] at hinverse
      rw [stamp?, hrow home s hmem]
      exact hinverse.stamps_oldest hold
  · intro id seen hs
    cases hregion : e.region? id.region with
    | none =>
      rw [stamp?, regionD_of_none hregion] at hs
      simp at hs
    | some s =>
      have hmem : (id.region, s) ∈ e.regions.toList :=
        ExtTreeMap.mem_toList_iff_getElem?_eq_some.mpr hregion
      have hinverse := h.inverse id.region
      rw [stamp?, regionD_of_region? hregion] at hs
      rw [regionD_of_region? hregion] at hinverse
      cases hold : s.lru.oldest? with
      | none =>
        rw [hinverse.stamps_of_oldest_none hold] at hs
        cases hs
      | some oldest =>
        exact Nat.le_trans ((foldl_contend_le hvictim).2 _ hmem oldest hold)
          (hinverse.oldest_le hold hs)

/-- The engine without an entry in memory that had to make room. -/
def evicted (e : Engine σ) (id : RowId) : Engine σ :=
  let s := e.regionD id.region
  { (e.setRegion id.region
    { s with memory := s.memory.erase id.key, lru := s.lru.remove id.key }).release with
    stats := e.stats.evict }

theorem stamp?_evicted (e : Engine σ) (id other : RowId) :
    (e.evicted id).stamp? other = if other = id then none else e.stamp? other := by
  obtain ⟨region, key⟩ := id
  obtain ⟨home, name⟩ := other
  rw [show (e.evicted ⟨region, key⟩).stamp? ⟨home, name⟩ = _ from stamp?_setRegion ..,
    Lru.stamps_remove]
  simp only [Tree.get_erase, RowId.mk.injEq, eq_comm (a := home), eq_comm (a := name)]
  by_cases hregion : region = home
  · subst hregion
    simp only [if_true, true_and]
    rfl
  · simp only [hregion, if_false, false_and]

theorem inMemory_evicted (e : Engine σ) (id other : RowId) :
    (e.evicted id).inMemory other = (decide (other ≠ id) && e.inMemory other) := by
  obtain ⟨region, key⟩ := id
  obtain ⟨home, name⟩ := other
  rw [show (e.evicted ⟨region, key⟩).inMemory ⟨home, name⟩ = _ from inMemory_setRegion ..]
  by_cases hregion : region = home
  · subst hregion
    by_cases hkey : key = name
    · simp [hkey, ExtTreeMap.contains_erase]
    · simp [ExtTreeMap.contains_erase, hkey, Ne.symm hkey, inMemory, isResident]
  · simp [hregion, Ne.symm hregion]

theorem knows_evicted (e : Engine σ) (id other : RowId) :
    (e.evicted id).knows other = e.knows other := by
  rw [knows, show (e.evicted id).regionD other.region = _ from regionD_setRegion ..]
  split
  · rename_i hregion
    rw [knows, ← hregion]
  · rfl

theorem Recalls.evicted {history : List RowId} (h : e.Recalls history) (id : RowId) :
    (e.evicted id).Recalls history := by
  refine h.fade (Nat.le_refl _) fun other tick hs => ?_
  rw [stamp?_evicted] at hs
  split at hs
  · cases hs
  · exact hs

/-- An entry whose last use came first of all those in memory. -/
def Oldest (e : Engine σ) (id : RowId) : Prop :=
  ∃ tick, e.stamp? id = some tick ∧ ∀ other seen, e.stamp? other = some seen → tick ≤ seen

theorem Oldest.sooner {id other : RowId} (h : e.Oldest id) (ordered : e.Ordered)
    {history : List RowId} (recalls : e.Recalls history) (hother : e.inMemory other = true)
    (hne : other ≠ id) : Sooner history id other := by
  obtain ⟨tick, hs, hleast⟩ := h
  obtain ⟨seen, hseen⟩ := ordered.stamp?_of_inMemory hother
  apply recalls.sooner hs hseen
  apply Nat.lt_of_le_of_ne (hleast other seen hseen)
  rintro rfl
  obtain ⟨hregion, hkey⟩ := ordered.distinct hs hseen
  cases id
  cases other
  exact hne (RowId.mk.injEq .. ▸ ⟨hregion.symm, hkey.symm⟩)

/-- A claim of a slot: there is a free one, or the oldest entry makes room. -/
theorem Sound.reserve_claims {c : Setup} (h : e.Sound c 0) (hpositive : 0 < c.capacity) :
    (e.resident < c.capacity ∧ e.reserve = (true, { e with resident := e.resident + 1 })) ∨
    (e.resident = c.capacity ∧ ∃ id, e.Oldest id ∧ e.inMemory id = true ∧
      e.reserve = (true, { e.evicted id with resident := e.resident })) := by
  have hbounded := h.bounded
  have hcapacity := h.capacity
  have hresident := h.resident
  obtain ⟨hroom, htry⟩ | ⟨hfull, htry⟩ := e.tryReserve_cases
  · refine .inl ⟨by omega, ?_⟩
    rw [Engine.reserve, reserveWithin, htry]
  · refine .inr ⟨by omega, ?_⟩
    cases hvictim : e.victim? with
    | none =>
      have := h.residents_of_victim_none hvictim
      omega
    | some victim =>
      obtain ⟨region, key, tick⟩ := victim
      have hin := h.victim_resident hvictim
      refine ⟨⟨region, key⟩, ⟨tick, h.toOrdered.victim_le hvictim⟩, hin, ?_⟩
      have hevict : e.evictOne = (true, e.evicted ⟨region, key⟩) := by
        simp only [evictOne, hvictim, hin, if_true]
        rfl
      have hfree : (e.evicted ⟨region, key⟩).resident = e.resident - 1 := rfl
      have hroom : (e.evicted ⟨region, key⟩).tryReserve =
          (true, { e.evicted ⟨region, key⟩ with resident := e.resident }) := by
        have hlt : (e.evicted ⟨region, key⟩).resident < (e.evicted ⟨region, key⟩).capacity := by
          rw [hfree]
          change e.resident - 1 < e.capacity
          omega
        rw [Engine.tryReserve, if_pos hlt, hfree, Nat.sub_add_cancel (by omega)]
      obtain ⟨n, hn⟩ := Nat.exists_eq_succ_of_ne_zero (show e.resident ≠ 0 by omega)
      rw [Engine.reserve, reserveWithin, htry]
      simp only [hevict]
      rw [hn, reserveWithin, ← hn, hroom]

end Engine
end TierCache
