import TierCache.Proofs.Tiers.Performing
import TierCache.Proofs.Value.Meaning

/-!
Operations on contents over a store that answers every call. They come to what they mean for the value
that a reader sees, and what they leave is what readers see from then on. Where nothing changes, nothing
is written or told.
-/
namespace TierCache
open Std

namespace Engine

variable {σ : Type} [Store σ] (e : Engine σ) (now : Nat) (region key : String)

theorem signals_readEntry : (e.readEntry now region key).2.signals = e.signals := by
  unfold readEntry
  dsimp only
  split
  · split <;> rfl
  · split
    · rfl
    · rename_i entry s _
      have htry := ({ e with store := s } : Engine σ).signals_tryReserve
      split
      · rename_i heq
        rw [heq] at htry
        exact (signals_install ..).trans htry
      · rename_i heq
        rwa [heq] at htry

theorem signals_getEntry : (e.getEntry now region key).2.signals = e.signals := by
  unfold getEntry
  split
  · exact e.signals_readEntry now region key
  · split
    · rfl
    · exact (signals_readEntry ..).trans (signals_ensureRegion ..)

/-- An operation on contents found the value `before` and left the value `after`: nothing was done, or the
row of the key was written, and it is what readers see. Of an emptied container no row is left. -/
inductive Leaves {α : Type} (picky : Prop) (stands : σ → Table → Prop) (t : Table)
    (overwrites : Bool) (before : Value) (expiresAt : Option Nat) (after : Value) :
    Except CacheError α × Engine σ → Prop
  | untouched {reply : Except CacheError α} (same : after = before) :
      Leaves picky stands t overwrites before expiresAt after (reply, e)
  | changed {a : α} {e' : Engine σ} {t' : Table} (differs : after ≠ before ∨ overwrites = true)
      (stored : stands e'.store t')
      (others : ∀ other name, ¬(region = other ∧ key = name) → t'.get? other name = t.get? other name)
      (row : (t'.get? region key).map (fun row => (row.value, row.expiresAt)) =
        (Typed.left? after).map (·, expiresAt))
      (shown : ∀ later, InRange picky later → (e'.perform later (.read region key)).1 =
        ((t'.get? region key).map Entry.row).filter (·.isVisible later)) :
      Leaves picky stands t overwrites before expiresAt after (.ok a, e')

end Engine

namespace Tiers

open Typed

variable {σ α : Type} [Store σ] {picky : Prop} {stands : σ → Table → Prop}
  {spared : String → String → Prop} {e : Engine σ} {t : Table}
  (dependable : Dependable picky stands) (h : Tiers picky stands spared 0 e t)
include dependable h

/-- A reader sees what is visible of the cell. -/
theorem read {now : Nat} (hnow : InRange picky now) (region key : String) :
    (e.perform now (.read region key)).1 = (e.cell t region key).visible? now := by
  obtain ⟨found, e', hget, hseen, -⟩ := h.getEntry dependable (Nat.zero_le now) hnow region key
  rw [← hseen.row, Engine.perform, hget]

/-- Contents that were changed are written over the row of their key. -/
theorem writeBack_leaves {region key : String} {entry : Entry} (hfiled : entry.Filed picky region key)
    (hthere : entry.value.isEmptyContainer = true → (e.region? region).isSome)
    {before : Value} {overwrites : Bool} (differs : entry.value ≠ before ∨ overwrites = true) (a : α) :
    ∃ e', e.writeBack region key entry = (.ok (), e') ∧
      e.Leaves region key picky stands t overwrites before entry.expiresAt entry.value (.ok a, e') := by
  unfold Engine.writeBack
  split
  · rename_i hempty
    obtain ⟨t', h', hcell⟩ := h.delete dependable region [key]
    have hgone : (e.delete region [key]).2.cell t' region key = .absent := by
      rw [hcell, if_pos ⟨hthere hempty, rfl, List.mem_singleton_self key⟩]
    have hrow : t'.get? region key = none := congrArg Cell.stored hgone
    refine ⟨_, rfl, .changed differs h'.stored ?_ ?_ ?_⟩
    · intro other name hne
      have hother := hcell other name
      rw [if_neg fun hname => hne ⟨hname.2.1, (List.mem_singleton.mp hname.2.2).symm⟩] at hother
      exact congrArg Cell.stored hother
    · rw [hrow, left?, if_pos hempty]
      rfl
    · intro later hlater
      rw [h'.read dependable hlater, hgone, hrow]
      rfl
  · rename_i hfilled
    obtain ⟨rfl, rfl, hfits⟩ := hfiled
    obtain ⟨createdAt, e', hput, hwrote⟩ := h.put dependable hfits
    have hstored := hwrote.written.stored
    have hrow : (t.save { entry with createdAt, resident := false }).get? entry.region entry.key =
        some { entry with createdAt, resident := false } := hstored
    refine ⟨e', hput, .changed differs hwrote.tiers.stored ?_ ?_ ?_⟩
    · intro other name hne
      rw [t.get?_save, if_neg fun heq => hne (RowId.mk.inj heq)]
    · rw [hrow, left?, if_neg hfilled]
      rfl
    · intro later hlater
      have hheld := Cell.held_of_stored hwrote.written.copy hstored
      rw [hwrote.tiers.read dependable hlater, Cell.visible?, hrow]
      exact congrArg _ hheld

/-- A change that serves a meaning comes to what it means for the value of the entry. -/
theorem editEntry_meets {m : Meaning α} (lawful : m.contents.Lawful) {overwrites : Bool}
    {change : m.β → Except CacheError (Edit α m.β)}
    (hallows : ∀ b, m.Allows overwrites b (change b))
    (hencodes : ∀ v b edit, v.Encodable → m.contents.of? v = some b → change b = .ok edit →
      (m.contents.wrap edit.after).Encodable)
    {region key : String} {entry : Entry} (hfiled : entry.Filed picky region key)
    (hthere : entry.value ≠ .empty m.contents.dataType → (e.region? region).isSome) :
    ∃ after, m.Meets entry.value (e.editEntry region key m.contents change entry).1 after ∧
      e.Leaves region key picky stands t overwrites entry.value entry.expiresAt after
        (e.editEntry region key m.contents change entry) := by
  unfold Engine.editEntry
  cases hof : m.contents.of? entry.value with
  | none => exact ⟨entry.value, .wrongType hof, .untouched rfl⟩
  | some b =>
    have hvalue := lawful.wrap_of? hof
    have hright := hallows b
    cases hchange : change b with
    | error err =>
      rw [hchange] at hright
      simp only [hchange]
      exact ⟨_, .of_right hof hright, .untouched hvalue⟩
    | ok edit =>
      have suits : m.Suits overwrites b edit := by rwa [hchange] at hright
      have hmeets := Typed.Meaning.Meets.of_right hof suits.right
      refine ⟨m.contents.wrap edit.after, ?_⟩
      simp only [hchange]
      cases hchanged : edit.changed with
      | false => exact ⟨hmeets, .untouched ((congrArg _ (suits.kept hchanged)).trans hvalue)⟩
      | true =>
        have hafter : ({ entry with value := m.contents.wrap edit.after } : Entry).Filed picky region
            key := by
          refine ⟨hfiled.ofRegion, hfiled.ofKey, fun hpicky => ?_⟩
          obtain ⟨hregion, hstorable⟩ := hfiled.fits hpicky
          exact ⟨hregion, hencodes _ b edit hstorable.value hof hchange, hstorable.createdAt,
            hstorable.lastAccessedAt, hstorable.expiresAt⟩
        -- only a key that was found can lose what it holds, and its region is there
        have hemptied (hempty : (m.contents.wrap edit.after).isEmptyContainer = true) :
            (e.region? region).isSome := by
          apply hthere
          intro hnothing
          cases hempty.symm.trans (suits.fills hchanged (hvalue.trans hnothing))
        have hdiffers : m.contents.wrap edit.after ≠ entry.value ∨ overwrites = true := by
          rw [← hvalue]
          exact (suits.differs hchanged).imp_left lawful.wrap_ne
        obtain ⟨e', hwrite, hleaves⟩ :=
          h.writeBack_leaves dependable hafter hemptied hdiffers edit.result
        simp only [if_true, hwrite]
        exact ⟨hmeets, hleaves⟩

/-- A plan that serves a meaning comes to what it means for the value that a reader sees. -/
theorem run_meets {m : Meaning α} (lawful : m.contents.Lawful) {overwrites : Bool} {plan : Plan α}
    (hserves : m.Serves overwrites plan) (hencodes : plan.Encodes) {now : Nat}
    (hnow : InRange picky now) {region key : String} (hregion : picky → region ≠ "") :
    let asked := e.perform now (.read region key)
    let before := (asked.1.map (·.value)).getD (.empty m.contents.dataType)
    ∃ after, m.Meets before (plan.run e now region key).1 after ∧
      asked.2.Leaves region key picky stands t overwrites before (asked.1.bind (·.expiresAt)) after
        (plan.run e now region key) := by
  intro asked before
  obtain ⟨found, e', hget, hseen, hrested⟩ := h.getEntry dependable (Nat.zero_le now) hnow region key
  have hasked : asked = (found.map Entry.row, e') := by
    simp only [asked, Engine.perform, hget]
  simp only [before, hasked]
  have hfound {entry : Entry} (hentry : found = some entry)
      (change : m.β → Except CacheError (Edit α m.β))
      (hallows : ∀ b, m.Allows overwrites b (change b))
      (hencodes : ∀ v b edit, v.Encodable → m.contents.of? v = some b → change b = .ok edit →
        (m.contents.wrap edit.after).Encodable) :=
    hrested.tiers.editEntry_meets dependable lawful hallows hencodes (hseen.filed hentry) fun _ => by
      subst hentry
      exact Engine.isSome_region?_getEntry now hget
  cases hserves with
  | upsert hallows =>
    simp only [Plan.run, Engine.upsert, hget]
    cases found with
    | some entry => exact hfound rfl _ hallows hencodes
    | none =>
      have hfits : (Entry.create now region key (.empty m.contents.dataType) none).Fits picky := by
        intro hpicky
        refine ⟨hregion hpicky, Value.encodable_empty _, hnow hpicky, hnow hpicky, ?_⟩
        intro _ hnever
        cases hnever
      exact hrested.tiers.editEntry_meets dependable lawful hallows hencodes ⟨rfl, rfl, hfits⟩
        fun hne => absurd rfl hne
  | @update absent change hchange nothing hof hsame hempty =>
    simp only [Plan.run, Engine.update, hget]
    cases found with
    | some entry =>
      apply hfound rfl (fun b => .ok (change b)) hchange
      rintro v b _ hvalue hof ⟨⟩
      exact hencodes v b hvalue hof
    | none =>
      have suits := hchange nothing
      have hmeets := Meaning.Meets.of_right hof suits.right
      rw [hempty, suits.kept hsame, lawful.wrap_of? hof] at hmeets
      exact ⟨_, hmeets, .untouched rfl⟩
  | @inspect absent read hright nothing hof hempty =>
    simp only [Plan.run, Engine.inspect, hget]
    cases found with
    | some entry =>
      refine ⟨entry.value, ?_⟩
      dsimp only
      cases hof' : m.contents.of? entry.value with
      | none => exact ⟨.wrongType hof', .untouched rfl⟩
      | some b =>
        have hmeets := Meaning.Meets.of_right hof' (hright b)
        rw [lawful.wrap_of? hof'] at hmeets
        exact ⟨hmeets, .untouched rfl⟩
    | none =>
      have hmeets := Meaning.Meets.of_right hof (hright nothing)
      rw [hempty, lawful.wrap_of? hof] at hmeets
      exact ⟨_, hmeets, .untouched rfl⟩

end Tiers

namespace Engine

/-- Whatever an engine went through, an operation on contents comes to what it means for the value that a
reader sees; an absent key counts as an empty value. Scores that are not finite are refused before the key
is looked at. -/
theorem typed_meets {σ α : Type} [Store σ] {picky : Prop} {stands : σ → Table → Prop}
    (dependable : Dependable picky stands) {store : σ} {rows : Table} (hstore : stands store rows)
    (named : rows.Named) (capacity : Nat) (defaultRegion : String) {calls : List Call}
    (hcalls : ∀ c ∈ calls, c.Fits picky) {now : Nat} {region key : String} {op : Typed α}
    (hop : Call.Fits picky ⟨now, _, .typed region key op⟩) :
    let e := (fresh store capacity defaultRegion).performAll calls
    let asked := e.perform now (.read region key)
    let before := (asked.1.map (·.value)).getD (.empty op.meaning.contents.dataType)
    let outcome := e.perform now (.typed region key op)
    asked.2.signals = e.signals ∧
    if op.finite then
      ∃ t after, stands e.store t ∧ stands asked.2.store t ∧ op.meaning.Meets before outcome.1 after ∧
        asked.2.Leaves region key picky stands t op.overwrites before (asked.1.bind (·.expiresAt)) after
          outcome
    else outcome = (.error (.invalidRequest "value is not a valid float"), e) := by
  intro e asked before outcome
  obtain ⟨hnow, hregion⟩ := hop
  have houtcome : outcome = op.plan.run e now region key := op.performTyped_eq ..
  refine ⟨e.signals_getEntry now region key, ?_⟩
  split
  · rename_i hfinite
    have hfresh : Tiers picky stands (fun _ _ => True) 0 (fresh store capacity defaultRegion) rows :=
      .fresh hstore named (fun _ _ _ _ => .inr trivial) capacity defaultRegion
    obtain ⟨t, h⟩ := Tiers.performAll dependable calls (fun c hc => ⟨Nat.zero_le _, hcalls c hc⟩)
      ⟨rows, hfresh⟩
    obtain ⟨after, hmeets, hleaves⟩ := h.run_meets dependable op.lawful (Typed.plan_serves hfinite)
      op.plan_encodes hnow hregion
    have hasked : stands asked.2.store t := (h.asked dependable (Nat.zero_le now) hnow rfl).tiers.stored
    rw [houtcome]
    exact ⟨t, after, h.stored, hasked, hmeets, hleaves⟩
  · rename_i hfinite
    rw [houtcome, Typed.plan_refuses hfinite]
    rfl

/-- Fields are counted once, and a hash that loses all of them is gone. -/
theorem typed_meets_emptied :
    let fields : ExtTreeMap String String := .ofList [("a", "1"), ("b", "2")]
    let calls : List Call := [⟨1, _, .setValue "main" "h" (.hash fields) (some 9)⟩]
    let op := Typed.hdel ["a", "b", "a"]
    let e := (fresh Table.empty 1 "main").performAll calls
    let asked := e.perform 5 (.read "main" "h")
    let outcome := e.perform 5 (.typed "main" "h" op)
    (Table.empty = Table.empty ∧ Table.empty.Named ∧ (∀ c ∈ calls, c.Fits False) ∧
      Call.Fits False ⟨5, _, .typed "main" "h" op⟩) ∧
    outcome.1 = .ok 2 ∧ asked.2.signals = e.signals ∧
    ∃ t after, e.store = t ∧ asked.2.store = t ∧ op.meaning.Meets (.hash fields) outcome.1 after ∧
      asked.2.Leaves "main" "h" False Eq t false (.hash fields) (some 9) after outcome := by
  intro fields calls op e asked outcome
  have hcalls : ∀ c ∈ calls, c.Fits False := fun c _ => c.fits_any
  have hop := Call.fits_any ⟨5, _, .typed "main" "h" op⟩
  have hasked : asked.1 = some ⟨.hash fields, 1, some 9⟩ := by decide +kernel
  have hreply : outcome.1 = .ok 2 := by decide +kernel
  have htyped := typed_meets (.of_reliable Table.reliable) (rfl : Table.empty = Table.empty)
    Table.named_empty 1 "main" hcalls hop
  have hmeets : ∃ t after, e.store = t ∧ asked.2.store = t ∧
      op.meaning.Meets ((asked.1.map (·.value)).getD (.empty .hash)) outcome.1 after ∧
      asked.2.Leaves "main" "h" False Eq t false ((asked.1.map (·.value)).getD (.empty .hash))
        (asked.1.bind (·.expiresAt)) after outcome := htyped.2
  rw [hasked] at hmeets
  exact ⟨⟨rfl, Table.named_empty, hcalls, hop⟩, hreply, htyped.1, hmeets⟩

/-- Infinity is refused as a score even where no member could have one. -/
theorem sortedAdd_infinity :
    let e := (fresh Table.empty 1 "main").performAll [⟨1, _, .setValue "main" "k" (.string "v") none⟩]
    let reply := (e.perform 2 (.typed "main" "k" (.sortedAdd [(.infinity false, "m")]))).1
    (e.perform 2 (.typeOf "main" "k")).1 = some .string ∧
      reply = .error (.invalidRequest "value is not a valid float") ∧ reply ≠ .error .wrongType := by
  decide +kernel

end Engine
end TierCache
