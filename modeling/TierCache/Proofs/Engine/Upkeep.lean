import TierCache.Proofs.Engine.Operation
import TierCache.Proofs.Engine.Slots

/-!
Every operation keeps the books of memory, whatever the store answers. That no slot is given back that
was not claimed shows in the count: with some slots more taken out of as many more, an operation does
the same and leaves them taken.
-/
namespace TierCache
open Std

namespace Engine

variable {σ α β : Type}

/-- The engine with more slots, all of them taken. -/
def raise (e : Engine σ) (d : Nat) : Engine σ :=
  { e with resident := e.resident + d, capacity := e.capacity + d }

section Raise
variable {e : Engine σ} {c : Setup} {n : Nat} (d : Nat)

@[simp] theorem region?_raise (region : String) : (e.raise d).region? region = e.region? region := rfl
@[simp] theorem regionD_raise (region : String) : (e.raise d).regionD region = e.regionD region := rfl
theorem raise_withStore (s : σ) :
    ({ e with store := s } : Engine σ).raise d = { e.raise d with store := s } := rfl

theorem ensureRegion_raise (region : String) :
    (e.raise d).ensureRegion region = (e.ensureRegion region).raise d := by
  unfold ensureRegion raise
  dsimp only
  split <;> rfl

@[simp] theorem store_raise : (e.raise d).store = e.store := rfl

theorem tryReserve_raise :
    (e.raise d).tryReserve = (e.tryReserve.1, e.tryReserve.2.raise d) := by
  obtain ⟨hroom, htry⟩ | ⟨hfull, htry⟩ := e.tryReserve_cases
  · have hraised : (e.raise d).resident < (e.raise d).capacity := Nat.add_lt_add_right hroom d
    rw [htry, tryReserve, if_pos hraised]
    simp only [raise, Nat.add_right_comm]
  · have hraised : (e.raise d).capacity ≤ (e.raise d).resident := Nat.add_le_add_right hfull d
    rw [htry, tryReserve, if_neg (Nat.not_lt.mpr hraised)]

theorem release_raise (h : 0 < e.resident) : (e.raise d).release = e.release.raise d := by
  have hcount : e.resident + d - 1 = e.resident - 1 + d := by omega
  simp only [release, raise, hcount]

theorem evictOne_raise (h : e.Sound c n) :
    (e.raise d).evictOne = (e.evictOne.1, e.evictOne.2.raise d) := by
  cases hvictim : e.victim? with
  | none =>
    have hraised : (e.raise d).victim? = none := hvictim
    simp only [evictOne, hvictim, hraised]
  | some victim =>
    obtain ⟨region, key, tick⟩ := victim
    have hraised : (e.raise d).victim? = some (region, key, tick) := hvictim
    have hin := h.victim_resident hvictim
    have hpos := (h.drop region key (e.regionD region).known hin).release.1
    have hfreed := release_raise d hpos
    simp only [evictOne, hvictim, hraised, regionD_raise, hin, if_true]
    exact congrArg (fun e : Engine σ => (true, { e with stats := e.stats.evict })) hfreed

theorem reserveWithin_raise (h : e.Sound c n) (fuel : Nat) : (e.raise d).reserveWithin fuel =
    ((e.reserveWithin fuel).1, (e.reserveWithin fuel).2.raise d) := by
  induction fuel generalizing e with
  | zero => exact tryReserve_raise d
  | succ fuel ih =>
    have htry := h.tryReserve
    simp only [reserveWithin, tryReserve_raise]
    cases hclaim : e.tryReserve with
    | mk granted e₁ =>
      rw [hclaim] at htry
      cases granted with
      | true => rfl
      | false =>
        simp only [evictOne_raise d htry]
        obtain ⟨-, hevict⟩ | ⟨e₂, hevict, hsound, -⟩ := Sound.evictOne_cases htry
        · simp only [hevict]
        · simp only [hevict]
          exact ih hsound

theorem reserve_raise (h : e.Sound c n) :
    (e.raise d).reserve = (e.reserve.1, e.reserve.2.raise d) := by
  rw [reserve, reserveWithin_raise d h, h.reserveWithin_eq]

theorem install_raise {reserved : Bool} (h : e.Sound c (if reserved then n + 1 else n))
    (region : String) (entry : Entry) : (e.raise d).install region entry reserved =
      ((e.install region entry reserved).1, (e.install region entry reserved).2.raise d) := by
  unfold install
  rw [regionD_raise]
  split
  · cases reserved with
    | false => rfl
    | true =>
      have hpos : 0 < (e.hold region entry.key entry).resident := h.release.1
      exact congrArg (true, ·) (release_raise d hpos)
  · cases reserved with
    | true => rfl
    | false =>
      simp only [Bool.false_eq_true, if_false, tryReserve_raise]
      cases e.tryReserve with
      | mk granted e₁ => cases granted <;> rfl

end Raise

/-- An operation that keeps the books and the setup, and that gives back no slot it has not got. -/
def KeepsBooks (f : Engine σ → α × Engine σ) : Prop :=
  ∀ (e : Engine σ) (c : Setup), e.Sound c 0 → ∀ d, (f e).2.Sound c 0 ∧ f (e.raise d) = ((f e).1, (f e).2.raise d)

namespace KeepsBooks

/-- One operation after another. -/
theorem bind {f : Engine σ → α × Engine σ} {g : α → Engine σ → β × Engine σ} (hf : KeepsBooks f)
    (hg : ∀ a, KeepsBooks (g a)) : KeepsBooks fun e => g (f e).1 (f e).2 := by
  intro e c h d
  obtain ⟨hsound, hlevel⟩ := hf e c h d
  obtain ⟨hsound', hlevel'⟩ := hg (f e).1 (f e).2 c hsound d
  refine ⟨hsound', ?_⟩
  simp only [hlevel]
  exact hlevel'

/-- What changes in the store, in the counters and in what is told is not on the books. -/
theorem of_store {f : Engine σ → α × Engine σ} (store : Engine σ → σ)
    (hf : ∀ e, (f e).2 = { e with store := store e })
    (hlevel : ∀ e d, f (e.raise d) = ((f e).1, { e.raise d with store := store e })) :
    KeepsBooks f := by
  intro e c h d
  rw [hlevel, hf]
  exact ⟨h.of_eq rfl rfl rfl rfl, rfl⟩

theorem pure (a : α) : KeepsBooks fun e : Engine σ => (a, e) :=
  fun _ _ h _ => ⟨h, rfl⟩

theorem ensureRegion (region : String) :
    KeepsBooks (fun e : Engine σ => ((), e.ensureRegion region)) :=
  fun _ _ h d => ⟨h.ensureRegion region, congrArg ((), ·) (ensureRegion_raise d region)⟩

theorem signal (s : Signal) : KeepsBooks (fun e : Engine σ => ((), e.signal s)) :=
  fun _ _ h _ => ⟨h.of_eq rfl rfl rfl rfl, rfl⟩

theorem announce (m : Mutation) (region key : String) (kind : ChangeKind) :
    KeepsBooks (fun e : Engine σ => ((), e.announce m region key kind)) :=
  fun _ _ h _ => ⟨h.of_eq rfl rfl rfl rfl, rfl⟩

variable [Store σ] (now : Nat) (region key : String)

/-! ### Reading -/

theorem peek : KeepsBooks (fun e : Engine σ => e.peek now region key) := by
  apply of_store fun e => (e.peek now region key).2.store
  · intro e
    unfold Engine.peek
    split <;> rfl
  · intro e d
    unfold Engine.peek
    rw [region?_raise]
    split <;> rfl

theorem readEntry : KeepsBooks (fun e : Engine σ => e.readEntry now region key) := by
  intro e c h d
  simp only [Engine.readEntry, regionD_raise, store_raise]
  cases hmem : (e.regionD region).memory[key]? with
  | some entry =>
    dsimp only
    split
    · exact ⟨h, rfl⟩
    · have hin : (e.regionD region).memory.contains key = true := by
        rw [ExtTreeMap.contains_eq_isSome_getElem?, hmem]
        rfl
      exact ⟨h.hold region key _ (by simp [hin]), rfl⟩
  | none =>
    dsimp only
    cases hload : TierCache.loadLive now region key e.store with
    | mk found s =>
      have hs : ({ e with store := s } : Engine σ).Sound c 0 := h.of_eq rfl rfl rfl rfl
      cases found with
      | none => exact ⟨hs, rfl⟩
      | some entry =>
        have htry := hs.tryReserve
        have hraise := tryReserve_raise (e := { e with store := s }) d
        rw [raise_withStore] at hraise
        simp only [hraise]
        cases hclaim : ({ e with store := s } : Engine σ).tryReserve with
        | mk granted e₁ =>
          rw [hclaim] at htry
          cases granted with
          | false => exact ⟨htry, rfl⟩
          | true =>
            have hclaimed : e₁.Sound c (if true then 0 + 1 else 0) := htry
            simp only [install_raise d hclaimed]
            exact ⟨hclaimed.install region _, trivial⟩

theorem getEntry : KeepsBooks (fun e : Engine σ => e.getEntry now region key) := by
  intro e c h d
  simp only [Engine.getEntry, region?_raise, store_raise]
  cases e.region? region with
  | some s => exact readEntry now region key e c h d
  | none =>
    cases TierCache.loadLive now region key e.store with
    | mk found s =>
      have hs : ({ e with store := s } : Engine σ).Sound c 0 := h.of_eq rfl rfl rfl rfl
      cases found with
      | none => exact ⟨hs, rfl⟩
      | some entry =>
        have hlevel := ensureRegion_raise (e := { e with store := s }) d region
        rw [raise_withStore] at hlevel
        simp only [hlevel]
        exact readEntry now region key _ c (hs.ensureRegion region) d

theorem get : KeepsBooks (fun e : Engine σ => e.get now region key) := by
  intro e c h d
  obtain ⟨hsound, hlevel⟩ := getEntry now region key e c h d
  beta_reduce at hsound hlevel
  simp only [Engine.get, hlevel]
  cases hget : e.getEntry now region key with
  | mk found e' =>
    rw [hget] at hsound
    cases found with
    | none => exact ⟨hsound.of_eq rfl rfl rfl rfl, rfl⟩
    | some entry =>
      obtain ⟨_, _, value, _, _, _, _⟩ := entry
      cases value <;> exact ⟨hsound.of_eq rfl rfl rfl rfl, rfl⟩

theorem read : KeepsBooks (fun e : Engine σ =>
    ((e.getEntry now region key).1.map Entry.row, (e.getEntry now region key).2)) :=
  (getEntry now region key).bind fun found => pure (found.map Entry.row)

theorem ttl : KeepsBooks (fun e : Engine σ => e.ttl now region key) := by
  intro e c h d
  obtain ⟨hsound, hlevel⟩ := peek now region key e c h d
  beta_reduce at hsound hlevel
  simp only [Engine.ttl, hlevel]
  cases hpeek : e.peek now region key with
  | mk found e₁ =>
    rw [hpeek] at hsound
    cases found <;> exact ⟨hsound, trivial⟩

theorem typeOf : KeepsBooks (fun e : Engine σ => e.typeOf now region key) :=
  (peek now region key).bind fun found => pure (found.map Entry.dataType)

theorem countLive (keys : List String) :
    KeepsBooks (fun e : Engine σ => e.countLive now region keys) := by
  induction keys with
  | nil => exact pure 0
  | cons key rest ih =>
    have hcount := (peek now region key).bind fun found => ih.bind fun n =>
      pure ((if found.isSome then 1 else 0) + n)
    intro e c h d
    cases hknown : (e.regionD region).known.contains key with
    | true =>
      simp only [Engine.countLive, regionD_raise, hknown, if_true]
      exact hcount e c h d
    | false =>
      simp only [Engine.countLive, regionD_raise, hknown, Bool.false_eq_true, if_false]
      exact ih e c h d

theorem exists? (keys : List String) :
    KeepsBooks (fun e : Engine σ => e.exists? now region keys) := by
  intro e c h d
  simp only [Engine.exists?, region?_raise]
  cases e.region? region with
  | none => exact ⟨h, rfl⟩
  | some s => exact countLive now region keys e c h d

theorem filterLive (keys : List String) :
    KeepsBooks (fun e : Engine σ => e.filterLive now region keys) := by
  induction keys with
  | nil => exact pure []
  | cons key rest ih =>
    exact (peek now region key).bind fun found => ih.bind fun keys =>
      pure (if found.isSome then key :: keys else keys)

theorem keys (pattern : String) : KeepsBooks (fun e : Engine σ => e.keys now region pattern) := by
  intro e c h d
  simp only [Engine.keys, region?_raise]
  cases e.region? region with
  | none => exact ⟨h, rfl⟩
  | some s => exact filterLive now region _ e c h d

theorem scan (cursor : Nat) (pattern : String) (count : Nat) :
    KeepsBooks (fun e : Engine σ => e.scan now region cursor pattern count) :=
  (keys now region pattern).bind fun found => pure (page found cursor count)

/-! ### Writing -/

theorem creationTime : KeepsBooks (fun e : Engine σ => e.creationTime region key) := by
  apply of_store fun e => (e.creationTime region key).2.store
  · intro e
    unfold Engine.creationTime
    dsimp only
    split
    · split
      · rfl
      · split <;> rfl
    · rfl
  · intro e d
    cases hknown : (e.regionD region).known.contains key with
    | false =>
      simp only [Engine.creationTime, regionD_raise, hknown, Bool.false_eq_true, if_false]
      rfl
    | true =>
      simp only [Engine.creationTime, regionD_raise, store_raise, hknown, if_true]
      cases (e.regionD region).memory[key]? with
      | some entry => rfl
      | none =>
        cases Store.load region key e.store with
        | mk reply s => cases reply <;> rfl

/-- Saving a row uses up the slot that was claimed for it, or gives it back. -/
theorem saveRow {e : Engine σ} {c : Setup} (row : Entry) {hasSlot claimed : Bool}
    (h : e.Sound c (if claimed then 1 else 0)) (hclaimed : claimed = true → hasSlot = true) (d : Nat) :
    (e.saveRow row hasSlot claimed).2.Sound c 0 ∧ (e.raise d).saveRow row hasSlot claimed =
      ((e.saveRow row hasSlot claimed).1, (e.saveRow row hasSlot claimed).2.raise d) := by
  simp only [Engine.saveRow, store_raise]
  cases Store.save row e.store with
  | mk reply s =>
    have hs : ({ e with store := s } : Engine σ).Sound c (if claimed then 1 else 0) :=
      h.of_eq rfl rfl rfl rfl
    cases reply with
    | error err =>
      cases claimed with
      | false => exact ⟨hs, rfl⟩
      | true =>
        obtain ⟨hpos, hreleased⟩ := Sound.release hs
        exact ⟨hreleased, Prod.ext rfl (release_raise d hpos)⟩
    | ok =>
      have hknown : ({ e with store := s }.setRegion row.region { e.regionD row.region with
          known := (e.regionD row.region).known.insert row.key }).Sound c
          (if claimed then 0 + 1 else 0) :=
        hs.retell rfl (fun _ => rfl) rfl
      cases hasSlot with
      | true =>
        have hlevel := install_raise d hknown row.region { row with resident := true }
        refine ⟨hknown.install row.region { row with resident := true }, ?_⟩
        exact congrArg (fun r : Bool × Engine σ =>
          ((Except.ok { row with resident := r.1 } : Except CacheError Entry), r.2)) hlevel
      | false =>
        cases claimed with
        | false => exact ⟨hknown, rfl⟩
        | true => cases hclaimed rfl

/-- A write claims its slot before the store is asked. -/
theorem writeThrough (entry : Entry) : KeepsBooks (fun e : Engine σ => e.writeThrough entry) := by
  intro e c h d
  obtain ⟨hcreated, hlevel⟩ := creationTime entry.region entry.key e c h d
  beta_reduce at hcreated hlevel
  simp only [Engine.writeThrough, hlevel]
  cases hcreate : e.creationTime entry.region entry.key with
  | mk created e₁ =>
    rw [hcreate] at hcreated
    have hsound : e₁.Sound c 0 := hcreated
    have hwas : (e₁.raise d).isResident entry.region entry.key =
      e₁.isResident entry.region entry.key := rfl
    simp only [hwas]
    cases e₁.isResident entry.region entry.key with
    | true => exact saveRow _ hsound (fun hclaimed => by cases hclaimed) d
    | false =>
      have hreserve := hsound.reserve
      simp only [Bool.false_eq_true, if_false, reserve_raise d hsound]
      cases hclaim : e₁.reserve with
      | mk granted e₂ =>
        rw [hclaim] at hreserve
        cases granted with
        | true => exact saveRow _ hreserve (fun _ => rfl) d
        | false => exact saveRow _ hreserve (fun hclaimed => by cases hclaimed) d

theorem put (entry : Entry) : KeepsBooks (fun e : Engine σ => e.put entry) := by
  have hwrite : KeepsBooks (fun e : Engine σ => (e.ensureRegion entry.region).writeThrough entry) :=
    (ensureRegion entry.region).bind fun _ => writeThrough entry
  intro e c h d
  obtain ⟨hsound, hlevel⟩ := hwrite e c h d
  beta_reduce at hsound hlevel
  simp only [Engine.put, hlevel]
  cases hput : (e.ensureRegion entry.region).writeThrough entry with
  | mk reply e₁ =>
    rw [hput] at hsound
    cases reply with
    | error err => exact ⟨hsound, rfl⟩
    | ok written => exact ⟨hsound.of_eq rfl rfl rfl rfl, rfl⟩

theorem setValue (value : Value) (expiresAt : Option Nat) :
    KeepsBooks (fun e : Engine σ => e.setValue now region key value expiresAt) :=
  put (.create now region key value expiresAt)

/-! ### Removing -/

theorem removeKey : KeepsBooks (fun e : Engine σ => e.removeKey region key) := by
  intro e c h d
  cases hin : (e.regionD region).memory.contains key with
  | true =>
    obtain ⟨hpos, hfreed⟩ :=
      (h.drop region key ((e.regionD region).known.erase key) hin).release
    have hlevel := release_raise d hpos
    simp only [Engine.removeKey, regionD_raise, hin, if_true]
    refine ⟨hfreed.of_eq rfl rfl rfl rfl, ?_⟩
    exact congrArg (fun freed : Engine σ => ((e.regionD region).known.contains key,
      { freed with store := (Store.delete region key e.store).2 })) hlevel
  | false =>
    have hfreed := h.dropAbsent region key ((e.regionD region).known.erase key) hin
    simp only [Engine.removeKey, regionD_raise, hin, Bool.false_eq_true, if_false]
    exact ⟨hfreed.of_eq rfl rfl rfl rfl, rfl⟩

theorem removeKeys (keys : List String) :
    KeepsBooks (fun e : Engine σ => e.removeKeys region keys) := by
  induction keys with
  | nil => exact pure 0
  | cons key rest ih =>
    have htold := (announce (.delete region key) region key .delete).bind fun _ =>
      ih.bind fun n => pure (n + 1)
    intro e c h d
    obtain ⟨hsound, hlevel⟩ := removeKey region key e c h d
    beta_reduce at hsound hlevel
    simp only [Engine.removeKeys, hlevel]
    cases hremove : e.removeKey region key with
    | mk was e₁ =>
      rw [hremove] at hsound
      cases was with
      | true => exact htold e₁ c hsound d
      | false => exact ih e₁ c hsound d

theorem delete (keys : List String) : KeepsBooks (fun e : Engine σ => e.delete region keys) := by
  intro e c h d
  simp only [Engine.delete, region?_raise]
  cases e.region? region with
  | none => exact ⟨h, rfl⟩
  | some s => exact removeKeys region keys e c h d

/-! ### Expiry -/

omit [Store σ] in
theorem setResidentExpiry (expiresAt : Option Nat) :
    KeepsBooks (fun e : Engine σ => ((), e.setResidentExpiry region key expiresAt)) := by
  intro e c h d
  simp only [Engine.setResidentExpiry, regionD_raise]
  cases hmem : (e.regionD region).memory[key]? with
  | none => exact ⟨h, rfl⟩
  | some entry =>
    have hin : (e.regionD region).memory.contains key = true := by
      rw [ExtTreeMap.contains_eq_isSome_getElem?, hmem]
      rfl
    refine ⟨h.retell rfl ?_ ?_, rfl⟩
    · intro other
      rw [ExtTreeMap.contains_insert]
      by_cases hkey : key = other
      · subst hkey
        simp [hin]
      · simp [hkey]
    · rw [ExtTreeMap.size_insert, if_pos hin]

/-- An expiry is set in the store and then on the copy in memory. -/
theorem updateExpiry (expiresAt : Option Nat) (m : Mutation) (kind : ChangeKind) :
    KeepsBooks (fun e : Engine σ => match Store.updateExpiry region key expiresAt e.store with
      | (.error err, store) => (.error err, { e with store })
      | (.ok (), store) => ((.ok true : Except CacheError Bool),
        ({ e with store }.setResidentExpiry region key expiresAt).announce m region key kind)) := by
  intro e c h d
  simp only [store_raise]
  cases Store.updateExpiry region key expiresAt e.store with
  | mk reply s =>
    have hs : ({ e with store := s } : Engine σ).Sound c 0 := h.of_eq rfl rfl rfl rfl
    cases reply with
    | error err => exact ⟨hs, rfl⟩
    | ok =>
      have hset : KeepsBooks (fun e : Engine σ => ((Except.ok true : Except CacheError Bool),
          (e.setResidentExpiry region key expiresAt).announce m region key kind)) :=
        (setResidentExpiry region key expiresAt).bind fun _ =>
          (announce m region key kind).bind fun _ => pure (Except.ok true)
      exact hset _ c hs d

theorem expire (seconds : Int) :
    KeepsBooks (fun e : Engine σ => e.expire now region key seconds) := by
  by_cases hseconds : seconds ≤ 0
  · have hdelete := (delete (σ := σ) region [key]).bind fun n =>
      pure (Except.ok (ε := CacheError) (decide (0 < n)))
    intro e c h d
    simp only [Engine.expire, if_pos hseconds]
    exact hdelete e c h d
  · intro e c h d
    simp only [Engine.expire, if_neg hseconds, region?_raise]
    cases e.region? region with
    | none => exact ⟨h, rfl⟩
    | some s =>
      obtain ⟨hsound, hlevel⟩ := peek now region key e c h d
      beta_reduce at hsound hlevel
      simp only [hlevel]
      cases hpeek : e.peek now region key with
      | mk found e₁ =>
        rw [hpeek] at hsound
        cases found with
        | none => exact ⟨hsound, rfl⟩
        | some entry => exact updateExpiry region key _ _ _ e₁ c hsound d

theorem persist : KeepsBooks (fun e : Engine σ => e.persist now region key) := by
  intro e c h d
  simp only [Engine.persist, region?_raise]
  cases e.region? region with
  | none => exact ⟨h, rfl⟩
  | some s =>
    obtain ⟨hsound, hlevel⟩ := peek now region key e c h d
    beta_reduce at hsound hlevel
    simp only [hlevel]
    cases hpeek : e.peek now region key with
    | mk found e₁ =>
      rw [hpeek] at hsound
      cases found with
      | none => exact ⟨hsound, rfl⟩
      | some entry => exact updateExpiry region key _ _ _ e₁ c hsound d

/-! ### Regions -/

omit [Store σ] in
theorem clearRegion : KeepsBooks (fun e : Engine σ => ((), e.clearRegion region)) := by
  intro e c h d
  have hresident := h.resident
  have hbounded := h.bounded
  have hle := e.size_le_residents region
  refine ⟨?_, Prod.ext rfl ?_⟩
  · apply h.rewrite (Nat.le_refl _)
    · exact fun _ => rfl
    · exact Lru.inverse_empty
    · intro key tick hs
      simp at hs
    · change e.resident - (e.regionD region).memory.size + (e.regionD region).memory.size + 0 =
        e.resident + (∅ : ExtTreeMap String Entry).size + 0
      rw [ExtTreeMap.size_empty]
      omega
    · omega
  · have hcount : e.resident + d - (e.regionD region).memory.size =
        e.resident - (e.regionD region).memory.size + d := by
      omega
    exact congrArg (fun n => { (e.setRegion region .empty).raise d with resident := n }) hcount

omit [Store σ] in
theorem clearIfThere : KeepsBooks (fun e : Engine σ =>
    ((), if (e.region? region).isSome then e.clearRegion region else e)) := by
  intro e c h d
  cases hregion : (e.region? region).isSome with
  | false =>
    simp only [region?_raise, hregion, Bool.false_eq_true, if_false]
    exact ⟨h, trivial⟩
  | true =>
    simp only [region?_raise, hregion, if_true]
    exact clearRegion region e c h d

theorem deleteRegion : KeepsBooks (fun e : Engine σ => e.deleteRegion region) := by
  intro e c h d
  have hdefault : (e.raise d).defaultRegion = e.defaultRegion := rfl
  by_cases heq : region = e.defaultRegion
  · simp only [Engine.deleteRegion, hdefault, if_pos heq]
    exact ⟨h, trivial⟩
  · simp only [Engine.deleteRegion, hdefault, if_neg heq]
    have hstore : ((e.raise d).signal (.mutation (.deleteRegion region))).store =
      (e.signal (.mutation (.deleteRegion region))).store := rfl
    rw [hstore]
    cases Store.deleteRegion region (e.signal (.mutation (.deleteRegion region))).store with
    | mk reply s =>
      have hs : ({ e.signal (.mutation (.deleteRegion region)) with store := s } :
        Engine σ).Sound c 0 := h.of_eq rfl rfl rfl rfl
      cases reply with
      | error err => exact ⟨hs, rfl⟩
      | ok =>
        have hcleared : KeepsBooks (fun e : Engine σ => ((Except.ok () : Except CacheError Unit),
            (if (e.region? region).isSome then e.clearRegion region else e).signal
              (.change region "*" .deleteRegion))) :=
          (clearIfThere region).bind fun _ =>
            (signal (.change region "*" .deleteRegion)).bind fun _ => pure (Except.ok ())
        exact hcleared _ c hs d

theorem filterDead (keys : List String) :
    KeepsBooks (fun e : Engine σ => e.filterDead now region keys) := by
  induction keys with
  | nil => exact pure []
  | cons key rest ih =>
    exact (peek now region key).bind fun found => ih.bind fun keys =>
      pure (if found.isSome then keys else key :: keys)

theorem removeDead (keys : List String) :
    KeepsBooks (fun e : Engine σ => e.removeDead now region keys) := by
  induction keys with
  | nil => exact pure 0
  | cons key rest ih =>
    have hremove := (removeKey region key).bind fun was => ih.bind fun n =>
      pure ((if was then 1 else 0) + n)
    intro e c h d
    obtain ⟨hsound, hlevel⟩ := peek now region key e c h d
    beta_reduce at hsound hlevel
    simp only [Engine.removeDead, hlevel]
    cases hpeek : e.peek now region key with
    | mk found e₁ =>
      rw [hpeek] at hsound
      cases found with
      | some entry => exact ih e₁ c hsound d
      | none => exact hremove e₁ c hsound d

theorem sweepRegions (regions : List String) :
    KeepsBooks (fun e : Engine σ => e.sweepRegions now regions) := by
  induction regions with
  | nil => exact pure 0
  | cons region rest ih =>
    intro e c h d
    have hregion := (filterDead now region (e.regionD region).known.toList).bind fun dead =>
      (removeDead now region dead).bind fun n => ih.bind fun m => pure (n + m)
    exact hregion e c h d

theorem sweep : KeepsBooks (fun e : Engine σ => e.sweep now) := by
  intro e c h d
  obtain ⟨hsound, hlevel⟩ := sweepRegions now e.regions.keys e c h d
  beta_reduce at hsound hlevel
  simp only [Engine.sweep, show (e.raise d).regions = e.regions from rfl, hlevel]
  exact ⟨hsound.of_eq rfl rfl rfl rfl, rfl⟩

omit [Store σ] in
theorem know (known : Region → ExtTreeSet String) : KeepsBooks (fun e : Engine σ =>
    ((), e.setRegion region { e.regionD region with known := known (e.regionD region) })) :=
  fun _ _ h _ => ⟨h.retell rfl (fun _ => rfl) rfl, rfl⟩

omit [Store σ] in
theorem claimAndInstall (entry : Entry) : KeepsBooks (fun e : Engine σ =>
    ((), match e.tryReserve with
      | (true, e) => (e.install region entry true).2
      | (false, e) => e)) := by
  intro e c h d
  have htry := h.tryReserve
  simp only [tryReserve_raise]
  cases hclaim : e.tryReserve with
  | mk granted e₁ =>
    rw [hclaim] at htry
    cases granted with
    | false => exact ⟨htry, rfl⟩
    | true =>
      have hclaimed : e₁.Sound c (if true then 0 + 1 else 0) := htry
      simp only [install_raise d hclaimed]
      exact ⟨hclaimed.install region entry, trivial⟩

omit [Store σ] in
theorem primeEntry (entry : Entry) : KeepsBooks (fun e : Engine σ => ((), e.primeEntry entry)) := by
  have hprime := (ensureRegion (σ := σ) entry.region).bind fun _ =>
    (know entry.region fun s => s.known.insert entry.key).bind fun _ =>
      claimAndInstall entry.region { entry with resident := true }
  exact hprime

omit [Store σ] in
theorem primeEntries (entries : List Entry) :
    KeepsBooks (fun e : Engine σ => ((), entries.foldl Engine.primeEntry e)) := by
  induction entries with
  | nil => exact pure ()
  | cons entry rest ih => exact (primeEntry entry).bind fun _ => ih

theorem prime : KeepsBooks (fun e : Engine σ => e.prime now) := by
  intro e c h d
  simp only [Engine.prime, store_raise]
  cases Store.loadAll e.store with
  | mk reply s =>
    have hs : ({ e with store := s } : Engine σ).Sound c 0 := h.of_eq rfl rfl rfl rfl
    cases reply with
    | error err => exact ⟨hs, rfl⟩
    | ok entries =>
      obtain ⟨hsound, hlevel⟩ := primeEntries (entries.filter (!·.isExpired now)) _ c hs d
      refine ⟨hsound, ?_⟩
      exact congrArg (fun r : Unit × Engine σ =>
        ((Except.ok (entries.filter (!·.isExpired now)).length : Except CacheError Nat), r.2)) hlevel

theorem regionNames : KeepsBooks (fun e : Engine σ => e.regionNames) :=
  fun _ _ h _ => ⟨h.of_eq rfl rfl rfl rfl, rfl⟩

theorem regionCounts : KeepsBooks (fun e : Engine σ =>
    (((e.regionCounts region).1.total, (e.regionCounts region).1.stored),
      (e.regionCounts region).2)) :=
  fun _ _ h _ => ⟨h.of_eq rfl rfl rfl rfl, rfl⟩

/-! ### Contents -/

theorem writeBack (entry : Entry) :
    KeepsBooks (fun e : Engine σ => e.writeBack region key entry) := by
  intro e c h d
  unfold Engine.writeBack
  split
  · have hdelete : KeepsBooks (fun e : Engine σ =>
        ((Except.ok () : Except CacheError Unit), (e.delete region [key]).2)) :=
      (delete region [key]).bind fun _ => pure (Except.ok ())
    exact hdelete e c h d
  · exact put entry e c h d

theorem editEntry (t : Contents β) (change : β → Except CacheError (Edit α β)) (entry : Entry) :
    KeepsBooks (fun e : Engine σ => e.editEntry region key t change entry) := by
  intro e c h d
  simp only [Engine.editEntry]
  cases t.of? entry.value with
  | none => exact ⟨h, rfl⟩
  | some contents =>
    dsimp only
    cases change contents with
    | error err => exact ⟨h, rfl⟩
    | ok edit =>
      cases hchanged : edit.changed with
      | false =>
        simp only [hchanged, Bool.false_eq_true, if_false]
        exact ⟨h, trivial⟩
      | true =>
        obtain ⟨hsound, hlevel⟩ :=
          writeBack region key { entry with value := t.wrap edit.after } e c h d
        beta_reduce at hsound hlevel
        simp only [hchanged, if_true, hlevel]
        cases hwrite : e.writeBack region key { entry with value := t.wrap edit.after } with
        | mk reply e₁ =>
          rw [hwrite] at hsound
          cases reply <;> exact ⟨hsound, rfl⟩

theorem upsert (t : Contents β) (change : β → Except CacheError (Edit α β)) :
    KeepsBooks (fun e : Engine σ => e.upsert now region key t change) := by
  intro e c h d
  obtain ⟨hsound, hlevel⟩ := getEntry now region key e c h d
  beta_reduce at hsound hlevel
  simp only [Engine.upsert, hlevel]
  cases hget : e.getEntry now region key with
  | mk found e₁ =>
    rw [hget] at hsound
    cases found <;> exact editEntry region key t change _ e₁ c hsound d

theorem update (t : Contents β) (absent : α) (change : β → Edit α β) :
    KeepsBooks (fun e : Engine σ => e.update now region key t absent change) := by
  intro e c h d
  obtain ⟨hsound, hlevel⟩ := getEntry now region key e c h d
  beta_reduce at hsound hlevel
  simp only [Engine.update, hlevel]
  cases hget : e.getEntry now region key with
  | mk found e₁ =>
    rw [hget] at hsound
    cases found with
    | none => exact ⟨hsound, rfl⟩
    | some entry => exact editEntry region key t (fun b => .ok (change b)) entry e₁ c hsound d

theorem inspect (t : Contents β) (absent : α) (read : β → α) :
    KeepsBooks (fun e : Engine σ => e.inspect now region key t absent read) := by
  intro e c h d
  obtain ⟨hsound, hlevel⟩ := getEntry now region key e c h d
  beta_reduce at hsound hlevel
  simp only [Engine.inspect, hlevel]
  cases hget : e.getEntry now region key with
  | mk found e₁ =>
    rw [hget] at hsound
    cases found with
    | none => exact ⟨hsound, rfl⟩
    | some entry =>
      dsimp only
      cases t.of? entry.value <;> exact ⟨hsound, rfl⟩

theorem typed (op : Typed α) :
    KeepsBooks (fun e : Engine σ => e.performTyped now region key op) := by
  simp only [op.performTyped_eq]
  cases op.plan with
  | refuse err => exact pure (Except.error err)
  | upsert c change => exact upsert now region key c change
  | update c absent change => exact update now region key c absent change
  | inspect c absent read => exact inspect now region key c absent read

/-- Every operation keeps the books. -/
theorem perform (op : Operation α) : KeepsBooks (fun e : Engine σ => e.perform now op) := by
  cases op with
  | setValue region key value expiresAt => exact setValue now region key value expiresAt
  | read region key => exact read now region key
  | get region key => exact get now region key
  | countLive region keys => exact exists? now region keys
  | ttl region key => exact ttl now region key
  | typeOf region key => exact typeOf now region key
  | keys region pattern => exact keys now region pattern
  | scan region cursor pattern count => exact scan now region cursor pattern count
  | expire region key seconds => exact expire now region key seconds
  | persist region key => exact persist now region key
  | delete region keys => exact delete region keys
  | deleteRegion region => exact deleteRegion region
  | sweep => exact sweep now
  | prime => exact prime now
  | regionNames => exact regionNames
  | regionCounts region => exact regionCounts region
  | knownCount => exact fun _ _ h _ => ⟨h, rfl⟩
  | lookups => exact fun _ _ h _ => ⟨h, rfl⟩
  | typed region key op => exact typed now region key op

end KeepsBooks

section Runs
variable [Store σ]

/-- The books are kept over a run of operations. -/
theorem Sound.performAll {e : Engine σ} {c : Setup} (h : e.Sound c 0) (calls : List Call) :
    (e.performAll calls).Sound c 0 := by
  induction calls generalizing e with
  | nil => exact h
  | cons call rest ih => exact ih (KeepsBooks.perform call.now call.operation e c h 0).1

/-- The books of memory after any run, from any store and with any failures of it: the slots taken are
the entries in memory and no more than the capacity; each order of use goes over the keys in memory,
by ticks that are past and that no two keys share. Hence the next operation gives back no slot that is
not taken, so that slots taken beside it stay taken, and a write finds a slot, or finds that there is
none, after one eviction at most. -/
theorem slots_accounted (store : σ) (capacity : Nat) (defaultRegion : String) (calls : List Call) :
    let e := (Engine.fresh store capacity defaultRegion).performAll calls
    e.resident = e.residents ∧ e.resident ≤ capacity ∧
    (∀ region key, key ∈ (e.regionD region).memory ↔ key ∈ (e.regionD region).lru.stamps) ∧
    (∀ region, (e.regionD region).lru.Inverse) ∧
    (∀ (region other key name : String) (tick : Nat),
      (e.regionD region).lru.stamps[key]? = some tick →
        tick ≤ e.clock ∧
          ((e.regionD other).lru.stamps[name]? = some tick → region = other ∧ key = name)) ∧
    (∀ {α : Type} (now : Nat) (op : Operation α) (d : Nat), (e.raise d).perform now op =
      ((e.perform now op).1, (e.perform now op).2.raise d)) ∧
    (∀ (region key : String) (fuel : Nat),
      let w := ((e.ensureRegion region).creationTime region key).2
      w.reserveWithin (fuel + 1) = w.reserve ∧
        w.reserve.2.stats.evictions ≤ w.stats.evictions + 1) := by
  intro e
  have h : e.Sound ⟨capacity, defaultRegion⟩ 0 :=
    (Sound.fresh store capacity defaultRegion).performAll calls
  refine ⟨h.resident, h.bounded.trans_eq h.capacity, ?_, h.inverse, ?_, ?_, ?_⟩
  · intro region key
    rw [ExtTreeMap.mem_iff_contains, ExtTreeMap.mem_iff_contains, h.tracked]
  · intro region other key name tick hs
    exact ⟨h.past hs, h.distinct hs⟩
  · intro α now op d
    exact (KeepsBooks.perform now op e _ h d).2
  · intro region key fuel
    have hw := (KeepsBooks.creationTime region key _ _ (h.ensureRegion region) 0).1
    refine ⟨hw.reserveWithin_eq fuel, ?_⟩
    obtain ⟨-, -, hnone⟩ | ⟨e', hsome, -, hevictions⟩ := hw.reserve_cases
    · rw [reserve, hnone]
      exact Nat.le_succ _
    · rw [reserve, hsome]
      exact hevictions

end Runs
end Engine
end TierCache
