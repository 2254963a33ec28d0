import TierCache.Proofs.Engine.Upkeep
import TierCache.Proofs.Replication.Event
import TierCache.Proofs.Replication.Link
import TierCache.Proofs.Tiers.Performing

/-!
The same event, applied twice. What it sets or removes is as after the first time. What it lets expire
is given its seconds anew: a key that is still seen lives on from the second time.
-/
namespace TierCache
open Replication Std

/-- A value and its moment of expiry. -/
def Row.contents (row : Row) : Value × Option Nat := (row.value, row.expiresAt)

def Entry.contents (entry : Entry) : Value × Option Nat := (entry.value, entry.expiresAt)

namespace Cell

/-- Both tiers have the same contents; times of use and the time of creation may differ. -/
structure Alike (c c' : Cell) : Prop where
  known : c'.known = c.known
  stored : c'.stored.map Entry.contents = c.stored.map Entry.contents
  held : c'.held.map Row.contents = c.held.map Row.contents

namespace Alike

variable {c c' : Cell}

theorem of_eq (h : c' = c) : c.Alike c' := h ▸ ⟨rfl, rfl, rfl⟩

theorem of_written {entry entry' : Entry} (h : c.Written entry) (h' : c'.Written entry')
    (hsame : entry'.contents = entry.contents) : c.Alike c' := by
  refine ⟨h'.known.trans h.known.symm, ?_, ?_⟩
  · rw [h.stored, h'.stored, Option.map_some, Option.map_some, hsame]
  · rw [held_of_stored h.copy h.stored, held_of_stored h'.copy h'.stored]
    exact congrArg some hsame

/-- What is seen of both is the same at every reading of the clock. -/
theorem visible (h : c.Alike c') (now : Nat) :
    (c'.visible? now).map Row.contents = (c.visible? now).map Row.contents := by
  have hheld := h.held
  unfold visible?
  cases hc : c.held with
  | none =>
    rw [hc, Option.map_none, Option.map_eq_none_iff] at hheld
    rw [hheld]
  | some row =>
    rw [hc, Option.map_some, Option.map_eq_some_iff] at hheld
    obtain ⟨row', hc', hsame⟩ := hheld
    obtain ⟨hvalue, hexpiry⟩ := Prod.mk.inj hsame
    have hvisible : row'.isVisible now = row.isVisible now := by
      rw [Row.isVisible, Row.isVisible, hexpiry]
    rw [hc', Option.filter_some, Option.filter_some, hvisible]
    split
    · exact congrArg some hsame
    · rfl

end Alike

/-- A key is given a later moment of expiry while it is still seen. -/
structure Postponed (c : Cell) (now first last : Nat) (c' : Cell) : Prop where
  seen : now < first
  later : first < last
  held : ∃ row, c.held = some row ∧ row.expiresAt = some first
  retimed : c' = c.retimed (some last)

/-- What is seen later is seen now, unless the clock was set back. -/
theorem isSome_visible?_of_later {c : Cell} {now later : Nat} (hle : now ≤ later)
    (h : (c.visible? later).isSome) : (c.visible? now).isSome := by
  obtain ⟨row, hrow⟩ := Option.isSome_iff_exists.mp h
  rw [visible?, Option.filter_eq_some_iff] at hrow
  rw [visible?, hrow.1, Option.filter_some, if_pos (Row.isVisible_of_later hle hrow.2)]
  rfl

/-- What is seen of a key that is given another moment of expiry. -/
theorem visible?_retimed {c : Cell} {row : Row} (hheld : c.held = some row) (t now : Nat) :
    ((c.retimed (some t)).visible? now).map Row.contents =
      if now < t then some (row.value, some t) else none := by
  rw [visible?, held_retimed, hheld, Option.map_some, Option.filter_some]
  simp only [Row.isVisible, decide_eq_true_eq]
  split <;> rfl

/-- What was let expire and is still seen later is postponed. -/
theorem postponed_retimed {c : Cell} {row : Row} (hheld : c.held = some row) {later first : Nat}
    (hseen : ((c.retimed (some first)).visible? later).isSome) {last : Nat} (hlater : first < last) :
    (c.retimed (some first)).Postponed later first last
      ((c.retimed (some first)).retimed (some last)) := by
  refine ⟨?_, hlater, ?_, rfl⟩
  · by_contra hlate
    have hgone := visible?_retimed hheld first later
    rw [if_neg hlate, Option.map_eq_none_iff] at hgone
    rw [hgone] at hseen
    cases hseen
  · rw [held_retimed, hheld]
    exact ⟨_, rfl, rfl⟩

/-- The last moment of expiry counts. -/
theorem retimed_retimed (c : Cell) (expiresAt expiresAt' : Option Nat) :
    (c.retimed expiresAt).retimed expiresAt' = c.retimed expiresAt' := by
  obtain ⟨_, _ | _, _ | _⟩ := c <;> rfl

end Cell

namespace Engine

variable {σ : Type} {e : Engine σ}

/-- The engine after those who listen heard what it told. -/
def heard (e : Engine σ) : Engine σ := { e with signals := [] }

theorem cell_heard (t : Table) (region key : String) :
    e.heard.cell t region key = e.cell t region key := rfl

theorem region?_heard (e : Engine σ) (region : String) : e.heard.region? region = e.region? region := rfl

theorem Sound.heard {c : Setup} {n : Nat} (h : e.Sound c n) : e.heard.Sound c n := h.of_eq rfl rfl rfl rfl

theorem secondsAfter_mono {now later : Nat} (hle : now ≤ later) (seconds : Nat) :
    secondsAfter now seconds ≤ secondsAfter later seconds := by
  unfold secondsAfter Text.addCapped
  omega

/-- Without slots memory is empty. -/
theorem Sound.memory_eq_none {c : Setup} (h : e.Sound c 0) (hzero : c.capacity = 0)
    (region key : String) :
    (e.regionD region).memory[key]? = none := by
  have hsize := e.size_le_residents region
  have hresident := h.resident
  have hbounded := h.bounded
  have hcapacity := h.capacity
  have hempty : (e.regionD region).memory = ∅ := by
    rw [ExtTreeMap.eq_empty_iff_size_eq_zero]
    omega
  rw [hempty, ExtTreeMap.getElem?_empty]

end Engine

namespace Tiers

variable {σ : Type} {picky : Prop} {stands : σ → Table → Prop} {spared : String → String → Prop}
  {since : Nat} {e : Engine σ} {t : Table}

theorem heard (h : Tiers picky stands spared since e t) :
    Tiers picky stands spared since e.heard t := h.of_regions h.stored rfl

/-- Both engines are in order, and so each key's cell was changed from the one to the other. -/
def Changes (picky : Prop) (stands : σ → Table → Prop) (spared : String → String → Prop)
    (since : Nat) (change : String → String → Cell → Cell → Prop) (e e' : Engine σ) : Prop :=
  ∃ t t', Tiers picky stands spared since e t ∧ Tiers picky stands spared since e' t' ∧
    ∀ region key, change region key (e.cell t region key) (e'.cell t' region key)

theorem Changes.mono {change change' : String → String → Cell → Cell → Prop} {e e' : Engine σ}
    (h : Changes picky stands spared since change e e')
    (himp : ∀ region key c c', change region key c c' → change' region key c c') :
    Changes picky stands spared since change' e e' := by
  obtain ⟨t, t', ht, ht', hcells⟩ := h
  exact ⟨t, t', ht, ht', fun region key => himp region key _ _ (hcells region key)⟩

section
variable [Store σ] (dependable : Dependable picky stands)
include dependable

theorem setValue_again (h : Tiers picky stands spared since e t) {c : Engine.Setup} (sound : e.Sound c 0)
    {now later : Nat} {region key : String} {value : Value} {expiresAt : Option Nat}
    (hfits : (Entry.create now region key value expiresAt).Fits picky)
    (hfits' : (Entry.create later region key value expiresAt).Fits picky) :
    let e₁ := (e.setValue now region key value expiresAt).2.heard
    Changes picky stands spared since (fun _ _ => Cell.Alike) e₁
      (e₁.setValue later region key value expiresAt).2.heard := by
  obtain ⟨createdAt, e₁, hset, hput⟩ := h.setValue dependable hfits
  obtain ⟨createdAt', e₂, hset', hput'⟩ := hput.tiers.heard.setValue dependable hfits'
  have hsound : e₁.heard.Sound c 0 := by
    have hkept : (e.setValue now region key value expiresAt).2.Sound c 0 :=
      (Engine.KeepsBooks.setValue now region key value expiresAt e c sound 0).1
    rw [hset] at hkept
    exact hkept.heard
  simp only [hset, hset']
  refine ⟨_, _, hput.tiers.heard, hput'.tiers.heard, fun other name => ?_⟩
  by_cases hname : region = other ∧ key = name
  · obtain ⟨rfl, rfl⟩ := hname
    exact .of_written hput.written hput'.written rfl
  · obtain hsame | ⟨hout, hdropped⟩ := hput'.others hname
    · exact .of_eq hsame
    · -- the key is in memory already, unless there are no slots and nothing is
      obtain hzero | hc := c.capacity.eq_zero_or_pos
      · have hnone := hsound.memory_eq_none hzero other name
        refine .of_eq (hdropped.trans ?_)
        rw [Engine.cell, hnone]
        rfl
      · cases hout.symm.trans (hput.placed sound hc)

theorem delete_again (h : Tiers picky stands spared since e t) (region : String)
    (keys : List String) :
    let e₁ := (e.delete region keys).2.heard
    Changes picky stands spared since (fun _ _ => Cell.Alike) e₁ (e₁.delete region keys).2.heard := by
  intro e₁
  obtain ⟨t₁, h₁, hcell⟩ := h.delete dependable region keys
  obtain ⟨t₂, h₂, hcell'⟩ := h₁.heard.delete dependable region keys
  refine ⟨t₁, t₂, h₁.heard, h₂.heard, fun other name => .of_eq ?_⟩
  have hthere (hregion : (e₁.region? region).isSome) : (e.region? region).isSome := by
    cases hnone : e.region? region with
    | some state => rfl
    | none =>
      have hsame : e₁ = e.heard := by simp only [e₁, Engine.delete, hnone]
      rw [hsame, e.region?_heard, hnone] at hregion
      cases hregion
  rw [Engine.cell_heard, hcell']
  split
  · rename_i hremoved
    rw [Engine.cell_heard, hcell, if_pos ⟨hthere hremoved.1, hremoved.2⟩]
  · rfl

theorem deleteRegion_again (h : Tiers picky stands spared since e t) (region : String) :
    let e₁ := (e.deleteRegion region).2.heard
    Changes picky stands spared since (fun _ _ => Cell.Alike) e₁ (e₁.deleteRegion region).2.heard := by
  intro e₁
  obtain ⟨t₁, h₁, hcell⟩ := h.deleteRegion dependable region
  obtain ⟨t₂, h₂, hcell'⟩ := h₁.heard.deleteRegion dependable region
  refine ⟨t₁, t₂, h₁.heard, h₂.heard, fun other name => .of_eq ?_⟩
  have hother (hne : region ≠ e₁.defaultRegion) : region ≠ e.defaultRegion := by
    intro hdefault
    have hsame : e₁ = e.heard := by simp only [e₁, Engine.deleteRegion, if_pos hdefault]
    exact hne (hdefault.trans (by rw [hsame]; rfl))
  rw [Engine.cell_heard, hcell']
  split
  · rename_i hremoved
    rw [Engine.cell_heard, hcell, if_pos ⟨hother hremoved.1, hremoved.2⟩]
  · rfl

/-- Where the key is still seen it is given the seconds anew. -/
theorem expire_again (h : Tiers picky stands spared since e t) {now later : Nat} (hsince : since ≤ now)
    (hle : now ≤ later) (region key : String) {seconds : Int} (hseconds : 0 < seconds) :
    let e₁ := (e.expire now region key seconds).2.heard
    Changes picky stands spared since (fun other name c c' => c' = c ∨ (region = other ∧ key = name) ∧
        c.Postponed later (Engine.secondsAfter now seconds.toNat)
          (Engine.secondsAfter later seconds.toNat) c')
      e₁ (e₁.expire later region key seconds).2.heard := by
  intro e₁
  obtain ⟨t₁, h₁, hcell⟩ := h.expire dependable hsince region key seconds
  obtain ⟨t₂, h₂, hcell'⟩ := h₁.heard.expire dependable (hsince.trans hle) region key seconds
  refine ⟨t₁, t₂, h₁.heard, h₂.heard, fun other name => ?_⟩
  have hthere (hregion : (e₁.region? region).isSome) : (e.region? region).isSome := by
    cases hnone : e.region? region with
    | some state => rfl
    | none =>
      have hsame : e₁ = e.heard := by simp only [e₁, Engine.expire, if_neg hseconds.not_ge, hnone]
      rw [hsame, e.region?_heard, hnone] at hregion
      cases hregion
  rw [Engine.cell_heard, Engine.cell_heard]
  by_cases hname : (e₁.region? region).isSome ∧ region = other ∧ key = name
  · obtain ⟨hregion, rfl, rfl⟩ := hname
    have hfirst := hcell region key
    have hlast := hcell' region key
    rw [if_pos ⟨hthere hregion, rfl, rfl⟩, if_neg hseconds.not_ge] at hfirst
    rw [if_pos ⟨hregion, rfl, rfl⟩, if_neg hseconds.not_ge, Engine.cell_heard] at hlast
    rw [hlast]
    split
    · rename_i hseen
      -- what is seen later was seen the first time, too
      rw [hfirst] at hseen ⊢
      have hbefore : ((e.cell t region key).visible? now).isSome := by
        by_contra hunseen
        rw [if_neg hunseen] at hseen
        exact hunseen (Cell.isSome_visible?_of_later hle hseen)
      rw [if_pos hbefore] at hseen ⊢
      obtain ⟨row, hrow⟩ := Option.isSome_iff_exists.mp hbefore
      rw [Cell.visible?, Option.filter_eq_some_iff] at hrow
      have hmoment := Engine.secondsAfter_mono hle seconds.toNat
      obtain hsame | hlater := hmoment.eq_or_lt
      · rw [hsame, Cell.retimed_retimed]
        exact .inl rfl
      · exact .inr ⟨⟨rfl, rfl⟩, Cell.postponed_retimed hrow.1 hseen hlater⟩
    · exact .inl rfl
  · exact .inl ((hcell' other name).trans (if_neg hname))

end
end Tiers

/-- The event lets a key expire after some seconds. -/
structure Replication.Event.LetsExpire (e : Event) (region key : String) (seconds : Int) : Prop where
  kind : e.kind = .expire
  secondsToLive : e.secondsToLive = .ok seconds
  positive : 0 < seconds
  ofRegion : e.region = region
  ofKey : e.key = key

namespace Instance

variable {σ : Type} [Store σ]

/-- The instance after a run of operations. -/
def performAll (i : Instance σ) (calls : List Call) : Instance σ :=
  calls.foldl (fun i c => (i.run c.now (·.perform c.now c.operation)).2) i

/-- What the store keeps of a key: its value and its moment of expiry. -/
def keeps (i : Instance σ) (region key : String) : Option (Value × Option Nat) :=
  match (Store.load region key i.engine.store).1 with
  | .ok found => found.map Entry.contents
  | .error _ => none

/-- A key is the same on two instances, whenever it is asked for. -/
structure Same (i j : Instance σ) (region key : String) : Prop where
  shown (now : Nat) : Link.shows j now region key = Link.shows i now region key
  listed (now : Nat) (pattern : String) :
    key ∈ (j.engine.keys now region pattern).1 ↔ key ∈ (i.engine.keys now region pattern).1
  kept : j.keeps region key = i.keeps region key

/-- A key has the same value on two instances, but expires at another moment. -/
structure Postponed (i j : Instance σ) (region key : String) (value : Value) (first last : Nat) :
    Prop where
  before (now : Nat) : Link.shows i now region key =
    if now < first then some (value, some first) else none
  after (now : Nat) : Link.shows j now region key =
    if now < last then some (value, some last) else none
  kept : j.keeps region key = (i.keeps region key).map fun kept => (kept.1, some last)

variable {stands : σ → Table → Prop} {spared : String → String → Prop} {i j : Instance σ}
  {t t' : Table}

section
variable (dependable : Dependable False stands)
include dependable

theorem shows_cell (h : Tiers False stands spared 0 i.engine t) (now : Nat) (region key : String) :
    Link.shows i now region key =
      ((i.engine.cell t region key).visible? now).map Row.contents := by
  obtain ⟨found, e', hget, hseen, -⟩ :=
    h.getEntry dependable (Nat.zero_le now) False.elim region key
  rw [Link.shows, hget, ← hseen.row, Option.map_map]
  rfl

theorem keeps_cell (h : Tiers False stands spared 0 i.engine t) (region key : String) :
    i.keeps region key = (i.engine.cell t region key).stored.map Entry.contents := by
  obtain ⟨s, hload, -⟩ := dependable.load h.stored region key
  rw [keeps, hload]
  rfl

theorem same_of_alike (h : Tiers False stands spared 0 i.engine t)
    (h' : Tiers False stands spared 0 j.engine t') {region key : String}
    (alike : (i.engine.cell t region key).Alike (j.engine.cell t' region key)) :
    i.Same j region key := by
  constructor
  · intro now
    rw [shows_cell dependable h, shows_cell dependable h', alike.visible]
  · intro now pattern
    obtain ⟨names, e, hkeys, -, hnames, -⟩ := h.keys dependable now region pattern
    obtain ⟨names', e', hkeys', -, hnames', -⟩ := h'.keys dependable now region pattern
    rw [hkeys, hkeys', hnames, hnames', alike.known]
    have hseen := congrArg Option.isSome (alike.visible now)
    rw [Option.isSome_map, Option.isSome_map] at hseen
    rw [hseen]
  · rw [keeps_cell dependable h, keeps_cell dependable h', alike.stored]

theorem postponed_of_cell (h : Tiers False stands spared 0 i.engine t)
    (h' : Tiers False stands spared 0 j.engine t') {region key : String} {now first last : Nat}
    (postponed : (i.engine.cell t region key).Postponed now first last
      (j.engine.cell t' region key)) :
    ∃ value, i.Postponed j region key value first last := by
  obtain ⟨row, hheld, hfirst⟩ := postponed.held
  refine ⟨row.value, ?_, ?_, ?_⟩
  · intro reading
    rw [shows_cell dependable h, Cell.visible?, hheld, Option.filter_some]
    simp only [Row.isVisible, hfirst, decide_eq_true_eq]
    split
    · rw [Option.map_some, Row.contents, hfirst]
    · rfl
  · intro reading
    rw [shows_cell dependable h', postponed.retimed, Cell.visible?_retimed hheld]
  · rw [keeps_cell dependable h, keeps_cell dependable h', postponed.retimed, Cell.retimed,
      Option.map_map, Option.map_map]
    rfl

/-! ### Events -/

omit dependable in
theorem engine_set {e : Event} {v : Value} (hkind : e.kind = .set) (hvalue : e.valueToSet = .ok v)
    (i : Instance σ) (now : Nat) : (i.apply now e).2.engine =
      (i.engine.setValue now e.region e.key v e.expiresAt).2.heard := by
  rw [apply_set hkind hvalue, engine_run]
  rfl

omit dependable in
theorem engine_delete {e : Event} (hkind : e.kind = .delete) (i : Instance σ) (now : Nat) :
    (i.apply now e).2.engine = (i.engine.delete e.region [e.key]).2.heard := by
  rw [apply, hkind]
  exact engine_run i now _

omit dependable in
theorem engine_expire {e : Event} {seconds : Int} (hkind : e.kind = .expire)
    (hseconds : e.secondsToLive = .ok seconds) (i : Instance σ) (now : Nat) :
    (i.apply now e).2.engine = (i.engine.expire now e.region e.key seconds).2.heard := by
  rw [apply_expire hkind hseconds, engine_run]
  rfl

omit dependable in
theorem engine_deleteRegion {e : Event} (hkind : e.kind = .deleteRegion) (i : Instance σ)
    (now : Nat) : (i.apply now e).2.engine = (i.engine.deleteRegion e.region).2.heard := by
  rw [apply, hkind]
  exact engine_run i now _

/-- What an event does the second time, after what it did the first time. -/
theorem apply_changes (h : Tiers False stands spared 0 i.engine t) {c : Engine.Setup}
    (sound : i.engine.Sound c 0) (e : Event) {now later : Nat} (hle : now ≤ later) :
    Tiers.Changes False stands spared 0 (fun region key c c' => c.Alike c' ∨
        ∃ seconds, e.LetsExpire region key seconds ∧
          c.Postponed later (Engine.secondsAfter now seconds.toNat)
            (Engine.secondsAfter later seconds.toNat) c')
      (i.apply now e).2.engine ((i.apply now e).2.apply later e).2.engine := by
  have hunusable (hnow : ∀ j : Instance σ, ∀ reading, (j.apply reading e).2 = j) :
      Tiers.Changes False stands spared 0 (fun _ _ => Cell.Alike)
        (i.apply now e).2.engine ((i.apply now e).2.apply later e).2.engine := by
    rw [hnow, hnow]
    exact ⟨t, t, h, h, fun _ _ => .of_eq rfl⟩
  cases hkind : e.kind with
  | set =>
    refine Tiers.Changes.mono ?_ fun _ _ _ _ => .inl
    cases hvalue : e.valueToSet with
    | error err => exact hunusable fun j reading => by rw [apply, hkind]; dsimp only; rw [hvalue]
    | ok v =>
      have hfits (reading : Nat) :
          (Entry.create reading e.region e.key v e.expiresAt).Fits False := False.elim
      rw [engine_set hkind hvalue, engine_set hkind hvalue, engine_set hkind hvalue]
      exact h.setValue_again dependable sound (hfits now) (hfits later)
  | delete =>
    refine Tiers.Changes.mono ?_ fun _ _ _ _ => .inl
    rw [engine_delete hkind, engine_delete hkind, engine_delete hkind]
    exact h.delete_again dependable e.region [e.key]
  | deleteRegion =>
    refine Tiers.Changes.mono ?_ fun _ _ _ _ => .inl
    rw [engine_deleteRegion hkind, engine_deleteRegion hkind, engine_deleteRegion hkind]
    exact h.deleteRegion_again dependable e.region
  | expire =>
    cases hseconds : e.secondsToLive with
    | error err =>
      refine Tiers.Changes.mono ?_ fun _ _ _ _ => .inl
      exact hunusable fun j reading => by rw [apply, hkind]; dsimp only; rw [hseconds]
    | ok seconds =>
      rw [engine_expire hkind hseconds, engine_expire hkind hseconds, engine_expire hkind hseconds]
      by_cases hpositive : 0 < seconds
      · refine (h.expire_again dependable (Nat.zero_le now) hle e.region e.key hpositive).mono ?_
        rintro region key c c' (rfl | ⟨⟨hregion, hkey⟩, hpostponed⟩)
        · exact .inl (.of_eq rfl)
        · exact .inr ⟨seconds, ⟨hkind, hseconds, hpositive, hregion, hkey⟩, hpostponed⟩
      · refine Tiers.Changes.mono ?_ fun _ _ _ _ => .inl
        simp only [Engine.expire, if_pos (Int.not_lt.mp hpositive)]
        exact h.delete_again dependable e.region [e.key]

end

theorem sound_performAll {c : Engine.Setup} (sound : i.engine.Sound c 0) (calls : List Call) :
    (i.performAll calls).engine.Sound c 0 := by
  induction calls generalizing i with
  | nil => exact sound
  | cons call rest ih =>
    have hengine := engine_run i call.now (·.perform call.now call.operation)
    have hkept := (Engine.KeepsBooks.perform call.now call.operation i.engine c sound 0).1
    exact ih (hengine ▸ Engine.Sound.heard hkept)

theorem stand_performAll {picky : Prop} (dependable : Dependable picky stands)
    (h : Tiers.Stand picky stands spared 0 i.engine) {calls : List Call}
    (hcalls : ∀ call ∈ calls, call.Fits picky) :
    Tiers.Stand picky stands spared 0 (i.performAll calls).engine := by
  induction calls generalizing i with
  | nil => exact h
  | cons call rest ih =>
    rw [List.forall_mem_cons] at hcalls
    obtain ⟨t, ht⟩ := h
    obtain ⟨t', ht'⟩ := ht.perform dependable (Nat.zero_le _) hcalls.1.1 hcalls.1.2
    have hengine := engine_run i call.now (·.perform call.now call.operation)
    exact ih ⟨t', hengine ▸ ht'.heard⟩ hcalls.2

/-- Applying an event again, later and with nothing else in between, changes no value and no moment of
expiry, in memory or in the store. The exception is a key that the event lets expire, and that is still
seen at the second time: its seconds are counted anew from there. -/
theorem apply_again (reliable : Reliable stands) {store : σ} {t₀ : Table} (hstore : stands store t₀)
    (named : t₀.Named) (capacity : Nat) (defaultRegion : String) (node : Instance σ)
    (calls : List Call) (e : Event) {now later : Nat} (hle : now ≤ later) :
    let start : Instance σ := { node with engine := .fresh store capacity defaultRegion }
    let once := ((start.performAll calls).apply now e).2
    let twice := (once.apply later e).2
    ∀ region key, once.Same twice region key ∨ ∃ seconds value, e.LetsExpire region key seconds ∧
      let first := Engine.secondsAfter now seconds.toNat
      let last := Engine.secondsAfter later seconds.toNat
      later < first ∧ first < last ∧ once.Postponed twice region key value first last := by
  intro start once twice region key
  have dependable := Dependable.of_reliable reliable
  have hfresh : Tiers False stands (fun _ _ => True) 0 start.engine t₀ :=
    .fresh hstore named (fun _ _ _ _ => .inr trivial) capacity defaultRegion
  have hsound := sound_performAll (i := start) (.fresh store capacity defaultRegion) calls
  obtain ⟨t, ht⟩ := stand_performAll dependable ⟨t₀, hfresh⟩ fun c (_ : c ∈ calls) => c.fits_any
  obtain ⟨t₁, t₂, h₁, h₂, hcells⟩ := apply_changes dependable ht hsound e hle
  obtain halike | ⟨seconds, hexpires, hpostponed⟩ := hcells region key
  · exact .inl (same_of_alike dependable h₁ h₂ halike)
  · obtain ⟨value, hvalue⟩ := postponed_of_cell dependable h₁ h₂ hpostponed
    exact .inr ⟨seconds, value, hexpires, hpostponed.seen, hpostponed.later, hvalue⟩

/-- A value that is set again is there as before. -/
theorem apply_again_set :
    let node := { Link.tableSide false with capacity := 1 }.start "main" 5
    let e := Event.ofMutation "e" 7 (.set (.create 7 "main" "k" (.string "v") (some 9000)))
    let once := (node.apply 7 e).2
    let twice := (once.apply 8 e).2
    Table.empty = Table.empty ∧ Table.empty.Named ∧ 7 ≤ 8 ∧ once.Same twice "main" "k" ∧
      Link.shows twice 8999 "main" "k" = some (.string "v", some 9000) := by
  intro node e once twice
  have hle : 7 ≤ 8 := by decide
  have hshown : Link.shows once 8999 "main" "k" = some (.string "v", some 9000) := by decide +kernel
  refine ⟨rfl, Table.named_empty, hle, ?_⟩
  obtain hsame | ⟨seconds, value, hexpires, -⟩ := apply_again Table.reliable
    (rfl : Table.empty = Table.empty) Table.named_empty 1 "main" node [] e hle "main" "k"
  · exact ⟨hsame, (hsame.shown 8999).trans hshown⟩
  · cases hexpires.kind

/-- A key that is let expire in ten seconds, and that its follower is told of again after five, is there
for five seconds more. -/
theorem expire_postponed :
    let node := { Link.tableSide false with capacity := 1 }.start "main" 5
    let set := Event.ofMutation "e" 7 (.set (.create 7 "main" "k" (.string "v") none))
    let expire := Event.ofMutation "f" 7 (.expire "main" "k" 10)
    let i := (node.apply 1000 set).2
    let once := (i.apply 1000 expire).2
    let twice := (once.apply 6000 expire).2
    Link.shows once 6000 "main" "k" = some (.string "v", some 11000) ∧
      Link.shows twice 6000 "main" "k" = some (.string "v", some 16000) ∧
      Link.shows once 12000 "main" "k" = none ∧
      Link.shows twice 12000 "main" "k" = some (.string "v", some 16000) := by
  decide +kernel

end Instance
end TierCache
