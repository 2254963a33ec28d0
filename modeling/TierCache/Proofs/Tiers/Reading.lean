import TierCache.Proofs.Tiers.Basic

/-!
Reads of an engine in both tiers. They answer by what is visible of the key's cell, and put at most a
copy of a row into memory.
-/
namespace TierCache
open Std

/-- What was found of a key is what is visible in its cell. -/
structure Seen (picky : Prop) (c : Cell) (now : Nat) (region key : String) (found : Option Entry) :
    Prop where
  row : found.map Entry.row = c.visible? now
  filed {entry : Entry} (h : found = some entry) : entry.Filed picky region key

namespace Seen

variable {picky : Prop} {c c' : Cell} {now : Nat} {region key : String} {found : Option Entry}

theorem isSome (h : Seen picky c now region key found) :
    found.isSome = (c.visible? now).isSome := by
  rw [← h.row, Option.isSome_map]

theorem live {entry : Entry} (h : Seen picky c now region key (some entry)) : c.Live now :=
  ⟨entry.row, h.row.symm⟩

theorem of_level (h : Seen picky c now region key found) (level : c'.Level c) :
    Seen picky c' now region key found :=
  ⟨h.row.trans (level.visible? now), h.filed⟩

/-- The live one of the entries that are held is what there is to see. -/
theorem of_held {entry : Entry} (hheld : c.held = some entry.row)
    (hfiled : entry.Filed picky region key) (now : Nat) :
    Seen picky c now region key (if entry.isExpired now then none else some entry) := by
  have hvisible := entry.isVisible_row now
  cases hexpired : entry.isExpired now with
  | true =>
    refine ⟨?_, nofun⟩
    rw [hexpired] at hvisible
    simp [Cell.visible?, hheld, Option.filter_some, hvisible]
  | false =>
    refine ⟨?_, ?_⟩
    · rw [hexpired] at hvisible
      simp [Cell.visible?, hheld, Option.filter_some, hvisible]
    · rintro _ ⟨⟩
      exact hfiled

end Seen

/-- An engine after a reader: the cells are level with those before. -/
structure Rested {σ : Type} (picky : Prop) (stands : σ → Table → Prop)
    (spared : String → String → Prop) (since : Nat) (e : Engine σ) (t : Table) (e' : Engine σ) :
    Prop where
  tiers : Tiers picky stands spared since e' t
  level (region key : String) : (e.cell t region key).Level (e'.cell t region key)

namespace Rested

variable {σ : Type} {picky : Prop} {stands : σ → Table → Prop} {spared : String → String → Prop}
  {since : Nat} {e e' e'' : Engine σ} {t : Table}

theorem refl (h : Tiers picky stands spared since e t) :
    Rested picky stands spared since e t e := ⟨h, fun _ _ => .refl _⟩

theorem trans (h : Rested picky stands spared since e t e')
    (h' : Rested picky stands spared since e' t e'') : Rested picky stands spared since e t e'' :=
  ⟨h'.tiers, fun region key => (h.level region key).trans (h'.level region key)⟩

theorem of_regions (h : Rested picky stands spared since e t e') (stored : stands e''.store t)
    (regions : e''.regions = e'.regions) : Rested picky stands spared since e t e'' := by
  refine ⟨h.tiers.of_regions stored regions, fun region key => (h.level region key).trans ?_⟩
  exact .of_eq (Engine.cell_congr (Engine.regionD_of_regions regions region) key)

theorem withStore (h : Tiers picky stands spared since e t) {s : σ} (hs : stands s t) :
    Rested picky stands spared since e t { e with store := s } :=
  (refl h).of_regions hs rfl

theorem ensureRegion (h : Tiers picky stands spared since e t) (region : String) :
    Rested picky stands spared since e t (e.ensureRegion region) :=
  ⟨h.ensureRegion region, fun other key =>
    .of_eq (Engine.cell_congr (e.regionD_ensureRegion region other) key)⟩

/-- The entry that is held of a key is put into memory. -/
theorem hold (h : Tiers picky stands spared since e t) {region key : String} {entry : Entry}
    (hfiled : entry.Filed picky region key) (hheld : (e.cell t region key).held = some entry.row)
    (hcell : ({ e.cell t region key with copy := some entry.row } : Cell).Orderly
      (spared region key) since) :
    Rested picky stands spared since e t (e.hold region key entry) := by
  refine ⟨h.hold hfiled hcell, fun other name => ?_⟩
  rw [Engine.cell_hold]
  split
  · rename_i hname
    obtain ⟨rfl, rfl⟩ := hname
    exact ⟨rfl, rfl, hheld.symm⟩
  · exact .refl _

theorem install (h : Tiers picky stands spared since e t) {region : String} {entry : Entry}
    (hfiled : entry.Filed picky region entry.key)
    (hheld : (e.cell t region entry.key).held = some entry.row)
    (hcell : ({ e.cell t region entry.key with copy := some entry.row } : Cell).Orderly
      (spared region entry.key) since) (reserved : Bool) :
    Rested picky stands spared since e t (e.install region entry reserved).2 := by
  have hs : stands (e.install region entry reserved).2.store t := by
    rw [Engine.store_install]
    exact h.stored
  obtain hput | ⟨-, hkept⟩ := e.regions_install region entry reserved
  · exact (hold h hfiled hheld hcell).of_regions hs hput
  · exact (refl h).of_regions hs hkept

end Rested

/-- Times that a picky store can hold. -/
abbrev InRange (picky : Prop) (now : Nat) : Prop := picky → now ≤ Text.maxUnsigned

theorem Entry.Fits.placed {picky : Prop} {entry : Entry} (h : entry.Fits picky) (place : Bool) :
    ({ entry with resident := place } : Entry).Fits picky := by
  intro hpicky
  obtain ⟨hregion, hstorable⟩ := h hpicky
  exact ⟨hregion, hstorable.value, hstorable.createdAt, hstorable.lastAccessedAt,
    hstorable.expiresAt⟩

theorem Entry.Fits.touch {picky : Prop} {entry : Entry} (h : entry.Fits picky) {now : Nat}
    (hnow : InRange picky now) (place : Bool) :
    ({ entry.touch now with resident := place } : Entry).Fits picky := by
  intro hpicky
  obtain ⟨hregion, hstorable⟩ := h hpicky
  exact ⟨hregion, hstorable.value, hstorable.createdAt, hnow hpicky, hstorable.expiresAt⟩

namespace Tiers

variable {σ : Type} [Store σ] {picky : Prop} {stands : σ → Table → Prop}
  (dependable : Dependable picky stands) {spared : String → String → Prop} {since : Nat}
  {e : Engine σ} {t : Table} (h : Tiers picky stands spared since e t) {now : Nat}
include dependable h

/-- A key that memory has not is looked for in the store. -/
theorem loadLive (now : Nat) {region key : String}
    (hout : (e.regionD region).memory[key]? = none) :
    ∃ found s, TierCache.loadLive now region key e.store = (found, s) ∧ stands s t ∧
      Seen picky (e.cell t region key) now region key found ∧
      ∀ entry, found = some entry → t.get? region key = some entry := by
  obtain ⟨s, hload, hs⟩ := dependable.load h.stored region key
  have hheld : (e.cell t region key).held = (t.get? region key).map Entry.row := by
    simp only [Cell.held, Engine.cell, hout, Option.map_none, Option.none_or]
  cases hrow : t.get? region key with
  | none =>
    rw [hrow] at hload hheld
    refine ⟨none, s, by simp only [TierCache.loadLive, hload], hs, ⟨?_, by simp⟩, by simp⟩
    rw [Cell.visible?, hheld]
    rfl
  | some row =>
    rw [hrow] at hload hheld
    obtain ⟨hregion, hkey⟩ := h.named _ row hrow
    refine ⟨if row.isExpired now then none else some row, s,
      by simp only [TierCache.loadLive, hload], hs,
      .of_held hheld ⟨hregion, hkey, dependable.fits h.stored hrow⟩ now, ?_⟩
    intro entry hentry
    split at hentry
    · cases hentry
    · exact hentry

theorem peek (now : Nat) (region key : String) :
    ∃ found s, e.peek now region key = (found, { e with store := s }) ∧
      Seen picky (e.cell t region key) now region key found ∧
      Rested picky stands spared since e t { e with store := s } := by
  cases hregion : e.region? region with
  | none =>
    have hout : (e.regionD region).memory[key]? = none := by simp [Engine.regionD_of_none hregion]
    obtain ⟨found, s, hload, hs, hseen, -⟩ := h.loadLive dependable now hout
    exact ⟨found, s, by simp only [Engine.peek, hregion, hload], hseen, .withStore h hs⟩
  | some state =>
    have hstate := Engine.regionD_of_region? hregion
    cases hmem : state.memory[key]? with
    | none =>
      have hout : (e.regionD region).memory[key]? = none := by rw [hstate, hmem]
      obtain ⟨found, s, hload, hs, hseen, -⟩ := h.loadLive dependable now hout
      exact ⟨found, s, by simp only [Engine.peek, hregion, Region.peek, hmem, hload], hseen,
        .withStore h hs⟩
    | some entry =>
      have hm : (e.regionD region).memory[key]? = some entry := by rw [hstate, hmem]
      have hheld : (e.cell t region key).held = some entry.row := by
        simp only [Cell.held, Engine.cell, hm, Option.map_some, Option.some_or]
      refine ⟨_, e.store, ?_, .of_held hheld (h.filed hm) now, .refl h⟩
      simp only [Engine.peek, hregion, Region.peek, hmem]

section
variable (hle : since ≤ now) (hnow : InRange picky now)
include hle hnow

theorem readEntry (region key : String) :
    ∃ found e', e.readEntry now region key = (found, e') ∧
      Seen picky (e.cell t region key) now region key found ∧
      Rested picky stands spared since e t e' := by
  cases hmem : (e.regionD region).memory[key]? with
  | some entry =>
    have hfiled := h.filed hmem
    have hheld : (e.cell t region key).held = some entry.row := by
      simp only [Cell.held, Engine.cell, hmem, Option.map_some, Option.some_or]
    cases hexpired : entry.isExpired now with
    | true =>
      refine ⟨none, e, by simp only [Engine.readEntry, hmem, hexpired, if_true], ?_, .refl h⟩
      simpa only [hexpired, if_true] using Seen.of_held hheld hfiled now
    | false =>
      have htouched : (entry.touch now).Filed picky region key :=
        ⟨hfiled.ofRegion, hfiled.ofKey, hfiled.fits.touch hnow entry.resident⟩
      have hsame : ({ e.cell t region key with copy := some (entry.touch now).row } : Cell) =
          e.cell t region key := by
        simp only [Engine.cell, hmem, Option.map_some]
        rfl
      refine ⟨some (entry.touch now), e.hold region key (entry.touch now), ?_, ?_, ?_⟩
      · simp only [Engine.readEntry, hmem, hexpired, Bool.false_eq_true, if_false]
      · have hlive : (entry.touch now).isExpired now = false := hexpired
        have htold : (e.cell t region key).held = some (entry.touch now).row := hheld
        have hseen := Seen.of_held htold htouched now
        rwa [hlive, if_neg Bool.false_ne_true] at hseen
      · exact .hold h htouched hheld (hsame ▸ h.cells region key)
  | none =>
    obtain ⟨found, s, hload, hs, hseen, hrow⟩ := h.loadLive dependable now hmem
    have hasked := Rested.withStore h hs
    cases found with
    | none => exact ⟨none, _, by simp only [Engine.readEntry, hmem, hload], hseen, hasked⟩
    | some entry =>
      have hfiled := hseen.filed rfl
      have hstored := hrow entry rfl
      obtain rfl := hfiled.ofKey
      have hplaced (place : Bool) :
          ({ entry.touch now with resident := place } : Entry).Filed picky region entry.key :=
        ⟨hfiled.ofRegion, hfiled.ofKey, hfiled.fits.touch hnow place⟩
      have hshown (place : Bool) : Seen picky (e.cell t region entry.key) now region entry.key
          (some { entry.touch now with resident := place }) :=
        ⟨hseen.row, by rintro _ ⟨⟩; exact hplaced place⟩
      have hregions := ({ e with store := s } : Engine σ).regions_tryReserve
      have hstore := ({ e with store := s } : Engine σ).store_tryReserve
      cases htry : { e with store := s }.tryReserve with
      | mk granted e₁ =>
        rw [htry] at hregions hstore
        have hclaimed : Rested picky stands spared since e t e₁ :=
          hasked.of_regions (by rw [hstore]; exact hs) hregions
        cases granted with
        | false =>
          refine ⟨_, e₁, ?_, hshown false, hclaimed⟩
          simp only [Engine.readEntry, hmem, hload, htry]
        | true =>
          have hcell : e₁.cell t region entry.key = e.cell t region entry.key :=
            Engine.cell_congr (Engine.regionD_of_regions hregions region) entry.key
          have hheld : (e₁.cell t region entry.key).held = some entry.row := by
            rw [hcell, Cell.held, Engine.cell, hmem]
            dsimp only [Option.map_none, Option.none_or]
            rw [hstored]
            rfl
          have horderly : ({ e₁.cell t region entry.key with copy := some entry.row } : Cell).Orderly
              (spared region entry.key) since :=
            (hclaimed.tiers.cells region entry.key).promoted hstored fun listed =>
              listed.known_of_live hle (hcell ▸ hseen.live)
          have hput : Rested picky stands spared since e₁ t
              (e₁.install region { entry.touch now with resident := true } true).2 :=
            .install hclaimed.tiers (hplaced true) hheld horderly true
          cases hinstall : e₁.install region { entry.touch now with resident := true } true with
          | mk placed e₂ =>
            rw [hinstall] at hput
            refine ⟨_, e₂, ?_, hshown placed, hclaimed.trans hput⟩
            simp only [Engine.readEntry, hmem, hload, htry, hinstall]

theorem getEntry (region key : String) :
    ∃ found e', e.getEntry now region key = (found, e') ∧
      Seen picky (e.cell t region key) now region key found ∧
      Rested picky stands spared since e t e' := by
  cases hregion : e.region? region with
  | some state =>
    obtain ⟨found, e', hread, hseen, hrested⟩ := h.readEntry dependable hle hnow region key
    exact ⟨found, e', by simp only [Engine.getEntry, hregion, hread], hseen, hrested⟩
  | none =>
    have hout : (e.regionD region).memory[key]? = none := by simp [Engine.regionD_of_none hregion]
    obtain ⟨found, s, hload, hs, hseen, -⟩ := h.loadLive dependable now hout
    have hasked := Rested.withStore h hs
    cases found with
    | none => exact ⟨none, _, by simp only [Engine.getEntry, hregion, hload], hseen, hasked⟩
    | some entry =>
      have hmade := hasked.trans (.ensureRegion hasked.tiers region)
      obtain ⟨found, e', hread, hseen, hrested⟩ :=
        hmade.tiers.readEntry dependable hle hnow region key
      refine ⟨found, e', ?_, hseen.of_level (hmade.level region key), hmade.trans hrested⟩
      simp only [Engine.getEntry, hregion, hload, hread]

end

/-- The count goes by the keys that are known and visible. -/
theorem countLive (now : Nat) (region : String) (keys : List String) :
    ∃ s, e.countLive now region keys = (keys.countP fun key =>
        (e.cell t region key).known && ((e.cell t region key).visible? now).isSome,
        { e with store := s }) ∧ Rested picky stands spared since e t { e with store := s } := by
  induction keys generalizing e with
  | nil => exact ⟨e.store, rfl, .refl h⟩
  | cons key rest ih =>
    rw [Engine.countLive, List.countP_cons]
    cases hknown : (e.regionD region).known.contains key with
    | false =>
      obtain ⟨s, hcount, hrested⟩ := ih h
      refine ⟨s, ?_, hrested⟩
      have hcell : (e.cell t region key).known = false := hknown
      simp only [Bool.false_eq_true, if_false, hcount, hcell, Bool.false_and, Nat.add_zero]
    | true =>
      obtain ⟨found, s, hpeek, hseen, hasked⟩ := h.peek dependable now region key
      obtain ⟨s', hcount, hrested⟩ := ih hasked.tiers
      refine ⟨s', ?_, hasked.trans hrested⟩
      have hcell : (e.cell t region key).known = true := hknown
      simp only [if_true, hpeek, hcount, hseen.isSome, hcell, Bool.true_and, Nat.add_comm]
      rfl

theorem exists? (now : Nat) (region : String) (keys : List String) :
    ∃ e', e.exists? now region keys = (keys.countP fun key =>
        (e.cell t region key).known && ((e.cell t region key).visible? now).isSome, e') ∧
      Rested picky stands spared since e t e' := by
  cases hregion : e.region? region with
  | none =>
    have hunknown (key : String) : (e.cell t region key).known = false := by
      simp [Engine.cell, Engine.regionD_of_none hregion]
    refine ⟨e, ?_, .refl h⟩
    simp [Engine.exists?, hregion, hunknown]
  | some state =>
    obtain ⟨s, hcount, hrested⟩ := h.countLive dependable now region keys
    exact ⟨_, by simp only [Engine.exists?, hregion, hcount], hrested⟩

theorem filterLive (now : Nat) (region : String) (keys : List String) :
    ∃ s, e.filterLive now region keys = (keys.filter fun key =>
        ((e.cell t region key).visible? now).isSome, { e with store := s }) ∧
      Rested picky stands spared since e t { e with store := s } := by
  induction keys generalizing e with
  | nil => exact ⟨e.store, rfl, .refl h⟩
  | cons key rest ih =>
    obtain ⟨found, s, hpeek, hseen, hasked⟩ := h.peek dependable now region key
    obtain ⟨s', hfilter, hrested⟩ := ih hasked.tiers
    refine ⟨s', ?_, hasked.trans hrested⟩
    simp only [Engine.filterLive, hpeek, hfilter, hseen.isSome, List.filter_cons]
    rfl

/-- The keys that are known and visible are listed in order, if they match. -/
theorem keys (now : Nat) (region pattern : String) :
    ∃ names e', e.keys now region pattern = (names, e') ∧
      names.Pairwise (fun a b => compare a b = .lt) ∧
      (∀ key, key ∈ names ↔ Glob.accepts pattern key = true ∧
        (e.cell t region key).known = true ∧ ((e.cell t region key).visible? now).isSome) ∧
      Rested picky stands spared since e t e' := by
  cases hregion : e.region? region with
  | none =>
    refine ⟨[], e, by simp only [Engine.keys, hregion], .nil, fun key => ?_, .refl h⟩
    simp [Engine.cell, Engine.regionD_of_none hregion]
  | some state =>
    obtain ⟨s, hfilter, hrested⟩ := h.filterLive dependable now region
      (state.known.toList.filter (Glob.accepts pattern ·))
    refine ⟨_, _, by simp only [Engine.keys, hregion, hfilter]; rfl,
      (state.known.ordered_toList.filter _).filter _, fun key => ?_, hrested⟩
    have hknown : (e.cell t region key).known = state.known.contains key := by
      rw [Engine.cell, Engine.regionD_of_region? hregion]
    simp only [List.mem_filter, ExtTreeSet.mem_toList, ← ExtTreeSet.contains_iff_mem, hknown]
    tauto

end Tiers
end TierCache
