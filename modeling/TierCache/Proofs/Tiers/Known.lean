import TierCache.Proofs.Glob.Language
import TierCache.Proofs.Tiers.Performing

/-!
The known keys over the keys in memory. In an engine that was primed, or over a store that was empty,
what is in memory is known, and what is read is counted, listed and deleted. A row from before that was
never primed is the exception: reading puts it into memory and does not make it known.
-/
namespace TierCache
open Std

namespace Engine

variable {σ : Type} [Store σ]

/-- Whoever asks for the key is told that it is there. -/
structure Reports (e : Engine σ) (now : Nat) (region key : String) : Prop where
  counted : (e.perform now (.countLive region [key])).1 = 1
  listed : key ∈ (e.perform now (.keys region "*")).1
  deleted : (e.perform now (.delete region [key])).1 = 1

/-- A key in memory is known, and one that a read finds from a reading of the clock on is there for
everybody afterwards. -/
structure Accounts (e : Engine σ) (since : Nat) (region key : String) : Prop where
  resident (h : e.isResident region key = true) : (e.regionD region).known.contains key = true
  found {now : Nat} (hle : since ≤ now) {row : Row}
    (h : (e.perform now (.read region key)).1 = some row) :
    (e.perform now (.read region key)).2.Reports now region key

theorem delete_known {e : Engine σ} {region key : String}
    (h : (e.regionD region).known.contains key = true) : (e.delete region [key]).1 = 1 := by
  cases hregion : e.region? region with
  | none => simp [regionD_of_none hregion] at h
  | some state =>
    rw [delete, hregion]
    dsimp only
    rw [removeKeys]
    cases hremove : e.removeKey region key with
    | mk was e' =>
      obtain rfl : was = true := (congrArg Prod.fst hremove).symm.trans h
      rfl

end Engine

namespace Tiers

variable {σ : Type} [Store σ] {stands : σ → Table → Prop} {spared : String → String → Prop}
  {since : Nat} {e : Engine σ} {t : Table} (dependable : Dependable False stands)
  (h : Tiers False stands spared since e t) {region key : String}
include dependable h

/-- A key that is known and seen is there for everybody. -/
theorem reports {now : Nat} (hknown : (e.cell t region key).known = true)
    (live : (e.cell t region key).Live now) : e.Reports now region key := by
  have hseen : ((e.cell t region key).visible? now).isSome = true :=
    Option.isSome_iff_exists.mpr live
  obtain ⟨e₁, hcount, -⟩ := h.exists? dependable now region [key]
  obtain ⟨names, e₂, hkeys, -, hnames, -⟩ := h.keys dependable now region "*"
  refine ⟨?_, ?_, Engine.delete_known hknown⟩
  · rw [Engine.perform, hcount, List.countP_singleton, hknown, hseen]
    rfl
  · rw [Engine.perform, hkeys]
    exact (hnames key).mpr ⟨Glob.accepts_star key, hknown, hseen⟩

/-- A read leaves a known key that it finds for everybody to see. -/
theorem reports_read {now : Nat} (hle : since ≤ now) {row : Row}
    (hrow : (e.perform now (.read region key)).1 = some row)
    (hknown : (e.cell t region key).Live now → (e.cell t region key).known = true) :
    (e.perform now (.read region key)).2.Reports now region key := by
  obtain ⟨found, e', hget, hseen, hrested⟩ := h.getEntry dependable hle False.elim region key
  simp only [Engine.perform, hget] at hrow ⊢
  have live : (e.cell t region key).Live now := ⟨row, hseen.row.symm.trans hrow⟩
  have hlevel := hrested.level region key
  refine hrested.tiers.reports dependable (hlevel.known.trans (hknown live)) ?_
  rw [Cell.Live, hlevel.visible?]
  exact live

/-- A key that is not spared is accounted for. -/
theorem accounts (hkey : ¬spared region key) : e.Accounts since region key := by
  have listed := (h.cells region key).listed.resolve_left hkey
  refine ⟨fun hresident => ?_, fun hle row hrow => ?_⟩
  · apply listed.resident
    rw [Engine.isResident_eq] at hresident
    rwa [Engine.cell, Option.isSome_map]
  · exact h.reports_read dependable hle hrow (listed.known_of_live hle)

end Tiers

namespace Engine

variable {σ : Type} [Store σ] {stands : σ → Table → Prop}

/-- Whatever the store held and whatever the run, a key without a row before the run is accounted for;
and so is a key that is known, at the time of the read. When the run starts with priming and the clock
is never set back before it, every key is accounted for. -/
theorem resident_known (reliable : Reliable stands) {store : σ} {t₀ : Table}
    (hstore : stands store t₀) (named : t₀.Named) (capacity : Nat) (defaultRegion : String) :
    (∀ calls : List Call, let e := (fresh store capacity defaultRegion).performAll calls
      (∀ region key, t₀.get? region key = none → e.Accounts 0 region key) ∧
      ∀ now region key row, (e.regionD region).known.contains key = true →
        (e.perform now (.read region key)).1 = some row →
        (e.perform now (.read region key)).2.Reports now region key) ∧
    ∀ (start : Nat) (calls : List Call), (∀ c ∈ calls, start ≤ c.now) →
      ∀ region key, ((fresh store capacity defaultRegion).performAll
        (⟨start, _, .prime⟩ :: calls)).Accounts start region key := by
  have dependable := Dependable.of_reliable reliable
  constructor
  · intro calls e
    have hfresh : Tiers False stands (fun region key => (t₀.get? region key).isSome) 0
        (fresh store capacity defaultRegion) t₀ :=
      .fresh hstore named (fun region key entry hrow => .inr (Option.isSome_of_eq_some hrow)) _ _
    obtain ⟨t, h⟩ : Tiers.Stand False stands _ 0 e := Tiers.performAll dependable calls
      (fun c _ => ⟨Nat.zero_le _, c.fits_any⟩) ⟨t₀, hfresh⟩
    refine ⟨fun region key hnone => h.accounts dependable (by simp [hnone]), ?_⟩
    intro now region key row hknown hrow
    exact h.reports_read dependable (Nat.zero_le now) hrow fun _ => hknown
  · intro start calls hcalls region key
    obtain ⟨hprimed, -⟩ := Tiers.primed dependable hstore named capacity defaultRegion start
    obtain ⟨t, h⟩ := Tiers.performAll dependable calls
      (fun c hc => ⟨hcalls c hc, c.fits_any⟩) ⟨t₀, hprimed⟩
    exact h.accounts dependable id

/-- A row from before the run is there for everybody once it was primed. -/
theorem resident_known_primed :
    let stored := Table.empty.save ⟨"main", "k", .string "v", 1, 1, none, false⟩
    stored = stored ∧ stored.Named ∧ (∀ c ∈ ([] : List Call), 5 ≤ c.now) ∧
      (((fresh stored 1 "main").performAll [⟨5, _, .prime⟩]).perform 6 (.read "main" "k")).2.Reports
        6 "main" "k" := by
  intro stored
  have named : stored.Named := Table.named_save Table.named_empty _
  have hcalls : ∀ c ∈ ([] : List Call), 5 ≤ c.now := nofun
  refine ⟨rfl, named, hcalls, ?_⟩
  have haccounts := (resident_known Table.reliable (rfl : stored = stored) named 1 "main").2 5 []
    hcalls "main" "k"
  have hrow : (((fresh stored 1 "main").performAll [⟨5, _, .prime⟩]).perform 6 (.read "main" "k")).1 =
      some ⟨.string "v", 1, none⟩ := by decide +kernel
  exact haccounts.found (by decide) hrow

/-- A row from before the run that was not primed is read and put into memory, and nobody else is told
that it is there. -/
theorem resident_unknown :
    let read := (fresh (Table.empty.save ⟨"main", "k", .string "v", 1, 1, none, false⟩) 1 "main").perform
      5 (.read "main" "k")
    read.1 = some ⟨.string "v", 1, none⟩ ∧ read.2.isResident "main" "k" = true ∧
      (read.2.regionD "main").known.contains "k" = false ∧
      (read.2.perform 5 (.countLive "main" ["k"])).1 = 0 ∧
      (read.2.perform 5 (.keys "main" "*")).1 = [] ∧
      (read.2.perform 5 (.delete "main" ["k"])).1 = 0 := by
  decide +kernel

end Engine
end TierCache
