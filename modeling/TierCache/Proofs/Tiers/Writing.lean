import TierCache.Proofs.Engine.Slots
import TierCache.Proofs.Tiers.Reading

/-!
Writes to both tiers. A row is put in its place in the store, and in memory there is nothing older of
its key afterwards. Other keys may leave memory to make room.
-/
namespace TierCache
open Std

namespace Engine

variable {σ : Type} {e : Engine σ}

theorem isResident_eq (region key : String) :
    e.isResident region key = ((e.regionD region).memory[key]?).isSome :=
  ExtTreeMap.contains_eq_isSome_getElem?

/-- With a slot, an entry that is put into memory is there. -/
theorem isResident_install {region : String} (entry : Entry) {reserved : Bool}
    (hslot : reserved = true ∨ e.isResident region entry.key = true) :
    (e.install region entry reserved).2.isResident region entry.key = true := by
  have hheld : (e.install region entry reserved).2.regions = (e.hold region entry.key entry).regions := by
    unfold install
    split
    · dsimp only
      split <;> rfl
    · rename_i hout
      rw [if_pos (hslot.resolve_right hout)]
  rw [isResident_eq, regionD_of_regions hheld, memory_hold, if_pos ⟨rfl, rfl⟩]
  rfl

/-- A row that is saved with a slot is in memory. -/
theorem isResident_saveRow [Store σ] {row : Entry} {s : σ}
    (h : Store.save row e.store = (.ok (), s)) (claimed : Bool)
    (hslot : claimed = true ∨ e.isResident row.region row.key = true) :
    (e.saveRow row true claimed).2.isResident row.region row.key = true := by
  have hknow (s : σ) : ({ e with store := s }.know row.region row.key).isResident row.region row.key =
      e.isResident row.region row.key := by
    rw [isResident_eq, memory_know, isResident_eq]
    rfl
  rw [(saveRow_of_ok h claimed).1]
  exact isResident_install { row with resident := true } (by rwa [hknow])

theorem secondsAfter_le (now seconds : Nat) : secondsAfter now seconds ≤ Text.maxUnsigned :=
  Nat.min_le_right _ _

/-- A write finds a slot, unless all are claimed. -/
theorem Sound.reserve_granted {c : Setup} {n : Nat} (h : e.Sound c n) (hroom : n < c.capacity) :
    e.reserve.1 = true := by
  obtain ⟨hempty, hfull, -⟩ | ⟨e', hsome, -⟩ := h.reserve_cases
  · have hresident := h.resident
    have hcapacity := h.capacity
    omega
  · rw [Engine.reserve, hsome]

end Engine

/-- No row but that of one key differs. -/
def Table.KeepsOthers (t : Table) (region key : String) (t' : Table) : Prop :=
  ∀ other name, ¬(region = other ∧ key = name) → t'.get? other name = t.get? other name

theorem Table.keepsOthers_self (t : Table) (region key : String) : t.KeepsOthers region key t :=
  fun _ _ _ => rfl

theorem Table.keepsOthers_save (t : Table) (row : Entry) : t.KeepsOthers row.region row.key (t.save row) := by
  intro other name hother
  rw [t.get?_save, if_neg fun heq => hother (RowId.mk.inj heq)]

theorem Table.keepsOthers_setExpiry (t : Table) (region key : String) (expiresAt : Option Nat) :
    t.KeepsOthers region key (t.setExpiry region key expiresAt) := by
  intro other name hother
  rw [t.get?_setExpiry, if_neg fun heq => hother (RowId.mk.inj heq)]

/-- An engine wrote a row to its key. Others left memory at most, and only if the key was not there.
In a memory with slots the key is there afterwards. -/
structure Put {σ : Type} (picky : Prop) (stands : σ → Table → Prop)
    (spared : String → String → Prop) (since : Nat) (e : Engine σ) (t : Table) (e' : Engine σ)
    (row : Entry) : Prop where
  tiers : Tiers picky stands spared since e' (t.save row)
  written : (e'.cell (t.save row) row.region row.key).Written row
  others {region key : String} (h : ¬(row.region = region ∧ row.key = key)) :
    e'.cell (t.save row) region key = e.cell t region key ∨
      e.isResident row.region row.key = false ∧
        e'.cell (t.save row) region key = { e.cell t region key with copy := none }
  placed {c : Engine.Setup} (sound : e.Sound c 0) (hc : 0 < c.capacity) :
    e'.isResident row.region row.key = true

namespace Tiers

variable {σ : Type} {picky : Prop} {stands : σ → Table → Prop} {spared : String → String → Prop}
  {since : Nat} {e : Engine σ} {t : Table}

theorem saved (h : Tiers picky stands spared since e t) {row : Entry} (hfits : row.Fits picky)
    (hplace : row.resident = false) {e' : Engine σ} (stored : stands e'.store (t.save row))
    (hsaved : e.Saved e' row) :
    Tiers picky stands spared since e' (t.save row) ∧
      (e'.cell (t.save row) row.region row.key).Written row ∧
      ∀ {region key : String}, ¬(row.region = region ∧ row.key = key) →
        e'.cell (t.save row) region key = e.cell t region key := by
  have hwritten : (e'.cell (t.save row) row.region row.key).Written row := by
    obtain ⟨copy, hcopy, hcell⟩ := hsaved.cell t row.region row.key
    rw [hcell, if_pos ⟨rfl, rfl⟩]
    exact ⟨rfl, rfl, hplace, hcopy⟩
  have hothers {region key : String} (hne : ¬(row.region = region ∧ row.key = key)) :
      e'.cell (t.save row) region key = e.cell t region key := by
    obtain ⟨copy, -, hcell⟩ := hsaved.cell t region key
    rw [hcell, if_neg hne]
  refine ⟨⟨stored, t.named_save h.named row, ?_, ?_⟩, hwritten, hothers⟩
  · intro region key entry hm
    obtain ⟨rfl, rfl, place, rfl⟩ | ⟨-, hold⟩ := hsaved.memory hm
    · exact ⟨rfl, rfl, hfits.placed place⟩
    · exact h.filed hold
  · intro region key
    by_cases hname : row.region = region ∧ row.key = key
    · obtain ⟨rfl, rfl⟩ := hname
      exact .written hwritten _ _
    · rw [hothers hname]
      exact h.cells region key

/-- A live key gets another moment of expiry in both tiers. -/
theorem retimed (h : Tiers picky stands spared since e t) {now : Nat} (hle : since ≤ now)
    {region key : String} (live : (e.cell t region key).Live now) {expiresAt : Option Nat}
    (hrange : ∀ n ∈ expiresAt, n ≤ Text.maxUnsigned) {s : σ}
    (hs : stands s (t.setExpiry region key expiresAt)) :
    Tiers picky stands spared since ({ e with store := s }.setResidentExpiry region key expiresAt)
      (t.setExpiry region key expiresAt) := by
  have hmemory := ({ e with store := s } : Engine σ).memory_setResidentExpiry region key expiresAt
  refine ⟨?_, t.named_setExpiry h.named region key expiresAt, ?_, ?_⟩
  · rwa [Engine.store_setResidentExpiry]
  · intro other name entry hm
    rw [hmemory] at hm
    split at hm
    · obtain ⟨old, hold, rfl⟩ := Option.map_eq_some_iff.mp hm
      have hfiled := h.filed hold
      refine ⟨hfiled.ofRegion, hfiled.ofKey, fun hpicky => ?_⟩
      obtain ⟨hregion, hstorable⟩ := hfiled.fits hpicky
      exact ⟨hregion, hstorable.value, hstorable.createdAt, hstorable.lastAccessedAt, hrange⟩
    · exact h.filed hm
  · intro other name
    rw [Engine.cell_setExpiry]
    split
    · rename_i hname
      obtain ⟨rfl, rfl⟩ := hname
      exact (h.cells region key).retimed hle live expiresAt
    · exact h.cells other name

section
variable [Store σ] (dependable : Dependable picky stands)
include dependable

theorem creationTime (h : Tiers picky stands spared since e t) (region key : String) :
    ∃ created s, e.creationTime region key = (created, { e with store := s }) ∧ stands s t ∧
      ∀ born ∈ created, InRange picky born := by
  unfold Engine.creationTime
  dsimp only
  split
  · split
    · rename_i entry hm
      refine ⟨_, e.store, rfl, h.stored, ?_⟩
      rintro _ ⟨⟩ hpicky
      exact ((h.filed hm).fits hpicky).2.createdAt
    · obtain ⟨s, hload, hs⟩ := dependable.load h.stored region key
      refine ⟨_, s, by rw [hload], hs, ?_⟩
      intro born hborn hpicky
      obtain ⟨row, hrow, rfl⟩ := Option.map_eq_some_iff.mp hborn
      exact (dependable.fits h.stored hrow hpicky).2.createdAt
  · exact ⟨none, e.store, rfl, h.stored, by simp⟩

theorem writeThrough (h : Tiers picky stands spared since e t) {entry : Entry}
    (hfits : entry.Fits picky) :
    ∃ createdAt place e', e.writeThrough entry = (.ok { entry with createdAt, resident := place }, e') ∧
      Put picky stands spared since e t e' { entry with createdAt, resident := false } := by
  obtain ⟨created, s, hcreated, hs, hborn⟩ := h.creationTime dependable entry.region entry.key
  have hasked := h.withStore hs
  have hrow : ({ entry with createdAt := created.getD entry.createdAt, resident := false } :
      Entry).Fits picky := by
    intro hpicky
    obtain ⟨hregion, hstorable⟩ := hfits hpicky
    refine ⟨hregion, hstorable.value, ?_, hstorable.lastAccessedAt, hstorable.expiresAt⟩
    cases created with
    | none => exact hstorable.createdAt
    | some born => exact hborn born rfl hpicky
  simp only [Engine.writeThrough, hcreated]
  cases hwas : ({ e with store := s } : Engine σ).isResident entry.region entry.key with
  | true =>
    obtain ⟨s', hsave, hs'⟩ := dependable.save hasked.stored hrow
    obtain ⟨place, e', hput, hsaved, rfl, -⟩ :=
      Engine.saveRow_saved hsave true false (by simp)
    obtain ⟨htiers, hwritten, hothers⟩ := hasked.saved hrow rfl hs' hsaved
    simp only [if_true, Bool.not_true, Bool.and_false]
    refine ⟨_, place, e', hput, htiers, hwritten, fun hne => .inl (hothers hne), ?_⟩
    intro _ _ _
    have hplaced := Engine.isResident_saveRow hsave false (.inr hwas)
    rwa [hput] at hplaced
  | false =>
    obtain ⟨hroom, hcells⟩ := hasked.reserve
    have hshrinks := ({ e with store := s } : Engine σ).shrinks_reserve
    have hgranted {c : Engine.Setup} (sound : e.Sound c 0) (hc : 0 < c.capacity) :
        ({ e with store := s } : Engine σ).reserve.1 = true := by
      have hasked : ({ e with store := s } : Engine σ).Sound c 0 := sound.of_eq rfl rfl rfl rfl
      exact hasked.reserve_granted hc
    cases hreserve : ({ e with store := s } : Engine σ).reserve with
    | mk granted e₁ =>
      rw [hreserve] at hroom hcells hshrinks hgranted
      have hout : (e₁.regionD entry.region).memory[entry.key]? = none := by
        rw [← Option.not_isSome_iff_eq_none, Option.isSome_iff_exists]
        rintro ⟨copy, hcopy⟩
        rw [Engine.isResident_eq, hshrinks _ _ _ hcopy] at hwas
        cases hwas
      obtain ⟨s', hsave, hs'⟩ := dependable.save hroom.stored hrow
      obtain ⟨place, e', hput, hsaved, rfl, -⟩ :=
        Engine.saveRow_saved hsave granted granted fun _ => hout
      obtain ⟨htiers, hwritten, hothers⟩ := hroom.saved hrow rfl hs' hsaved
      simp only [Bool.false_eq_true, if_false, Bool.not_false, Bool.and_true]
      refine ⟨_, place, e', hput, htiers, hwritten, fun {region key} hne => ?_, ?_⟩
      · rw [hothers hne]
        exact (hcells region key).imp_right fun hdropped => ⟨hwas, hdropped⟩
      · intro c sound hc
        obtain rfl : granted = true := hgranted sound hc
        have hplaced := Engine.isResident_saveRow hsave true (.inl rfl)
        rwa [hput] at hplaced

theorem put (h : Tiers picky stands spared since e t) {entry : Entry} (hfits : entry.Fits picky) :
    ∃ createdAt e', e.put entry = (.ok (), e') ∧
      Put picky stands spared since e t e' { entry with createdAt, resident := false } := by
  obtain ⟨createdAt, place, e', hwrite, hput⟩ :=
    (h.ensureRegion entry.region).writeThrough dependable hfits
  have hregion := e.regionD_ensureRegion entry.region
  refine ⟨createdAt, e'.announce (.set { entry with createdAt, resident := place }) entry.region
    entry.key .set, by simp only [Engine.put, hwrite], ?_, hput.written, ?_, ?_⟩
  · exact hput.tiers.of_regions hput.tiers.stored rfl
  · intro region key hne
    have hothers := hput.others hne
    rw [Engine.cell_congr (hregion region), Engine.isResident, hregion] at hothers
    exact hothers
  · intro c sound hc
    exact hput.placed (sound.ensureRegion entry.region) hc

theorem setValue (h : Tiers picky stands spared since e t) {now : Nat} {region key : String}
    {value : Value} {expiresAt : Option Nat}
    (hfits : (Entry.create now region key value expiresAt).Fits picky) :
    ∃ createdAt e', e.setValue now region key value expiresAt = (.ok (), e') ∧
      Put picky stands spared since e t e'
        { Entry.create now region key value expiresAt with createdAt } :=
  h.put dependable hfits

/-! ### Expiry -/

/-- Where a key is seen, it gets another moment of expiry, which is told. -/
theorem updateExpiry (h : Tiers picky stands spared since e t) {now : Nat} (hle : since ≤ now)
    {region key : String} (live : (e.cell t region key).Live now) {expiresAt : Option Nat}
    (hrange : ∀ n ∈ expiresAt, n ≤ Text.maxUnsigned) (m : Mutation) (kind : ChangeKind) :
    ∃ s, Store.updateExpiry region key expiresAt e.store = (.ok (), s) ∧
      Tiers picky stands spared since
        (({ e with store := s }.setResidentExpiry region key expiresAt).announce m region key kind)
        (t.setExpiry region key expiresAt) := by
  obtain ⟨s, hupdate, hs⟩ := dependable.updateExpiry h.stored region key hrange
  have hset := h.retimed hle live hrange hs
  exact ⟨s, hupdate, hset.of_regions hset.stored rfl⟩

theorem persist (h : Tiers picky stands spared since e t) {now : Nat} (hle : since ≤ now)
    (region key : String) :
    ∃ t', Tiers picky stands spared since (e.persist now region key).2 t' ∧
      t.KeepsOthers region key t' := by
  unfold Engine.persist
  split
  · exact ⟨t, h, t.keepsOthers_self region key⟩
  · obtain ⟨found, s, hpeek, hseen, hrested⟩ := h.peek dependable now region key
    rw [hpeek]
    cases found with
    | none => exact ⟨t, hrested.tiers, t.keepsOthers_self region key⟩
    | some entry =>
      have hrange : ∀ n ∈ (none : Option Nat), n ≤ Text.maxUnsigned := nofun
      obtain ⟨s', hupdate, hset⟩ := hrested.tiers.updateExpiry dependable hle hseen.live hrange
        (.set { entry with expiresAt := none }) .persist
      simp only [hupdate]
      exact ⟨_, hset, t.keepsOthers_setExpiry region key none⟩

end
end Tiers
end TierCache
