import Mathlib.Logic.Relation
import TierCache.Proofs.Flat.Rows

/-!
One key in all tiers. Whatever an engine does, it does to each key in steps of a few kinds; what no
step does to a key, no operation and no run of operations does.
-/
namespace TierCache
open Relation

/-- Whether a key is known, what memory has of it and what the store has. -/
structure Cell where
  known : Bool
  /-- The entry in memory, its times of use and its place aside. -/
  copy : Option Row
  stored : Option Entry

namespace Cell

/-- The key is in no tier. -/
def absent : Cell := ⟨false, none, none⟩

/-- What a reader comes to: the entry in memory, or else the one in the store. -/
def held (c : Cell) : Option Row := c.copy.or (c.stored.map Entry.row)

/-- What a reader may see at a reading of the clock. -/
def visible? (c : Cell) (now : Nat) : Option Row := c.held.filter (·.isVisible now)

def Live (c : Cell) (now : Nat) : Prop := ∃ row, c.visible? now = some row

/-- What was found, if anything, is what is visible. -/
def Finds (c : Cell) (now : Nat) (found : Option Entry) : Prop :=
  ∀ entry, found = some entry → c.visible? now = some entry.row

/-- An entry was written: memory has the same or nothing, and the store is not told that it has. -/
structure Written (c : Cell) (entry : Entry) : Prop where
  known : c.known = true
  stored : c.stored = some entry
  place : entry.resident = false
  copy : c.copy = none ∨ c.copy = some entry.row

/-- The cell with another moment of expiry in both tiers. -/
def retimed (c : Cell) (expiresAt : Option Nat) : Cell :=
  ⟨c.known, c.copy.map ({ · with expiresAt }), c.stored.map ({ · with expiresAt })⟩

theorem held_of_stored {c : Cell} {entry : Entry}
    (copy : c.copy = none ∨ c.copy = some entry.row) (stored : c.stored = some entry) :
    c.held = some entry.row := by
  obtain hnone | hsome := copy
  · rw [held, hnone, stored]
    rfl
  · rw [held, hsome]
    rfl

theorem held_retimed (c : Cell) (expiresAt : Option Nat) :
    (c.retimed expiresAt).held = c.held.map ({ · with expiresAt }) := by
  obtain ⟨_, _ | _, _ | _⟩ := c <;> rfl

inductive Kind
  | drop
  | promote
  | learn
  | create
  | rewrite
  | retime
  | forget
  | purge
  deriving DecidableEq

/-- A step that moves the entry between the tiers and does nothing else. -/
def Kind.Quiet (kind : Kind) : Prop := kind = .drop ∨ kind = .promote

instance (kind : Kind) : Decidable kind.Quiet := inferInstanceAs (Decidable (_ ∨ _))

/-- What is done to a key at a reading of the clock. A key can be removed although its entry stays in
the store, when the store fails; only what is expired is purged there. -/
inductive Step (now : Nat) : Kind → Cell → Cell → Prop
  | drop {c : Cell} : Step now .drop c { c with copy := none }
  | promote {c : Cell} {entry : Entry} (stored : c.stored = some entry) :
      Step now .promote c { c with copy := some entry.row }
  | learn {c : Cell} (stored : c.stored.isSome) : Step now .learn c { c with known := true }
  | create {c c' : Cell} {entry : Entry} (written : c'.Written entry) : Step now .create c c'
  | rewrite {c c' : Cell} {entry : Entry} (live : c.Live now) (written : c'.Written entry) :
      Step now .rewrite c c'
  | retime {c : Cell} (live : c.Live now) (expiresAt : Option Nat) :
      Step now .retime c (c.retimed expiresAt)
  | forget {c : Cell} {stored : Option Entry} (rest : stored = none ∨ stored = c.stored) :
      Step now .forget c ⟨false, none, stored⟩
  | purge {c : Cell} {entry : Entry} (stored : c.stored = some entry)
      (expired : entry.isExpired now = true) : Step now .purge c { c with stored := none }

/-- Steps of some kinds, one after another. -/
def Path (now : Nat) (does : Kind → Prop) : Cell → Cell → Prop :=
  ReflTransGen fun c c' => ∃ kind, does kind ∧ Step now kind c c'

/-- A write may create any key and rewrite one that is live. -/
def Writable (c : Cell) (now : Nat) (kind : Kind) : Prop :=
  kind = .create ∨ kind = .rewrite ∧ c.Live now

theorem Writable.step {c c' : Cell} {now : Nat} {kind : Kind} {entry : Entry}
    (h : c.Writable now kind) (written : c'.Written entry) : Step now kind c c' := by
  obtain rfl | ⟨rfl, live⟩ := h
  · exact .create written
  · exact .rewrite live written

section Path
variable {now : Nat} {does may : Kind → Prop} {c c' c'' : Cell}

theorem Path.refl (c : Cell) : Path now does c c := ReflTransGen.refl

theorem Path.one {kind : Kind} (hdoes : does kind) (h : Step now kind c c') : Path now does c c' :=
  ReflTransGen.single ⟨kind, hdoes, h⟩

theorem Path.trans (h : Path now does c c') (h' : Path now does c' c'') : Path now does c c'' :=
  ReflTransGen.trans h h'

theorem Path.mono (h : Path now does c c') (hdoes : ∀ kind, does kind → may kind) :
    Path now may c c' :=
  ReflTransGen.mono (fun _ _ ⟨kind, hkind, hstep⟩ => ⟨kind, hdoes kind hkind, hstep⟩) _ _ h

/-- What every step keeps, a path keeps. -/
theorem Path.keeps {P : Cell → Prop} (h : Path now does c c')
    (hstep : ∀ {kind : Kind} {d d' : Cell}, does kind → Step now kind d d' → P d → P d')
    (hc : P c) : P c' := by
  induction h with
  | refl => exact hc
  | tail _ hlast ih =>
    obtain ⟨kind, hdoes, hstep'⟩ := hlast
    exact hstep hdoes hstep' ih

/-! ### What paths keep -/

theorem not_live_absent : ¬absent.Live now := by
  rintro ⟨row, hrow⟩
  cases hrow

/-- A key that is in no tier comes back by a creating write alone. -/
theorem Path.absent (h : Path now does .absent c) (hdoes : ¬does .create) : c = .absent := by
  refine h.keeps (P := (· = Cell.absent)) ?_ rfl
  rintro kind d d' hkind hstep rfl
  cases hstep with
  | drop => rfl
  | promote stored => cases stored
  | learn stored => cases stored
  | create => exact absurd hkind hdoes
  | rewrite live => exact absurd live not_live_absent
  | retime live => exact absurd live not_live_absent
  | forget rest =>
    obtain rfl | rfl := rest
    · rfl
    · rfl
  | purge stored => cases stored

/-- A key that is not known becomes known by a write or in priming alone. -/
theorem Path.unknown (h : Path now does c c') (hc : c.known = false) (hcreate : ¬does .create)
    (hrewrite : ¬does .rewrite) (hlearn : ¬does .learn) : c'.known = false := by
  refine h.keeps (P := fun d => d.known = false) ?_ hc
  intro kind d d' hkind hstep hd
  cases hstep with
  | create => exact absurd hkind hcreate
  | rewrite => exact absurd hkind hrewrite
  | learn => exact absurd hkind hlearn
  | forget => rfl
  | drop => exact hd
  | promote => exact hd
  | retime => exact hd
  | purge => exact hd

/-- What is visible in memory is in the store. -/
def Backed (c : Cell) (now : Nat) : Prop :=
  ∀ row, c.copy = some row → row.isVisible now = true →
    ∃ entry, c.stored = some entry ∧ entry.row = row

theorem Backed.later {later : Nat} (h : c.Backed now) (hlater : now ≤ later) : c.Backed later := by
  intro row hrow hvisible
  exact h row hrow (Row.isVisible_of_later hlater hvisible)

theorem Written.backed {entry : Entry} (h : c.Written entry) : c.Backed now := by
  intro row hrow _
  refine ⟨entry, h.stored, ?_⟩
  obtain hnone | hsome := h.copy
  · cases hnone.symm.trans hrow
  · exact Option.some.inj (hsome.symm.trans hrow)

theorem Path.backed (h : Path now does c c') (hc : c.Backed now) : c'.Backed now := by
  refine h.keeps (P := (·.Backed now)) ?_ hc
  intro kind d d' _ hstep hd
  cases hstep with
  | drop =>
    intro row hrow
    cases hrow
  | promote stored =>
    rintro row ⟨⟩ _
    exact ⟨_, stored, rfl⟩
  | learn => exact hd
  | create written => exact written.backed
  | rewrite _ written => exact written.backed
  | retime live expiresAt =>
    rintro row hrow _
    obtain ⟨old, hold, rfl⟩ := Option.map_eq_some_iff.mp hrow
    -- what is live and in memory is what is held
    obtain ⟨seen, hseen⟩ := live
    rw [visible?, held, hold, Option.some_or, Option.filter_eq_some_iff] at hseen
    obtain ⟨⟨⟩, hvisible⟩ := hseen
    obtain ⟨entry, hentry, rfl⟩ := hd old hold hvisible
    exact ⟨{ entry with expiresAt }, by rw [retimed, hentry]; rfl, rfl⟩
  | forget =>
    intro row hrow
    cases hrow
  | purge stored expired =>
    intro row hrow hvisible
    obtain ⟨found, hfound, rfl⟩ := hd row hrow hvisible
    cases stored.symm.trans hfound
    rw [Entry.isVisible_row, expired] at hvisible
    cases hvisible

/-- An entry in the store that says it is in memory was never written, only given other moments of
expiry. -/
def Inherits (c c' : Cell) : Prop :=
  ∀ entry, c'.stored = some entry → entry.resident = true →
    ∃ old, c.stored = some old ∧ entry = { old with expiresAt := entry.expiresAt }

theorem Inherits.refl (c : Cell) : c.Inherits c := fun entry hentry _ => ⟨entry, hentry, rfl⟩

theorem Inherits.trans (h : c.Inherits c') (h' : c'.Inherits c'') : c.Inherits c'' := by
  intro entry hentry hplace
  obtain ⟨middle, hmiddle, heq⟩ := h' entry hentry hplace
  have hsame : middle.resident = true := by
    rw [heq] at hplace
    exact hplace
  obtain ⟨old, hold, hbefore⟩ := h middle hmiddle hsame
  refine ⟨old, hold, heq.trans ?_⟩
  rw [hbefore]

theorem Path.inherits (h : Path now does c c') : c.Inherits c' := by
  refine h.keeps (P := c.Inherits) ?_ (.refl c)
  intro kind d d' _ hstep hd
  cases hstep with
  | drop => exact hd
  | promote => exact hd
  | learn => exact hd
  | create written =>
    intro entry hentry hplace
    cases written.stored.symm.trans hentry
    cases written.place.symm.trans hplace
  | rewrite _ written =>
    intro entry hentry hplace
    cases written.stored.symm.trans hentry
    cases written.place.symm.trans hplace
  | retime live expiresAt =>
    intro entry hentry hplace
    obtain ⟨before, hbefore, rfl⟩ := Option.map_eq_some_iff.mp hentry
    obtain ⟨old, hold, heq⟩ := hd before hbefore hplace
    refine ⟨old, hold, ?_⟩
    rw [heq]
  | forget rest =>
    intro entry hentry hplace
    obtain rfl | rfl := rest
    · cases hentry
    · exact hd entry hentry hplace
  | purge =>
    intro entry hentry
    cases hentry

/-- Nothing but the place of the entry changes. -/
structure Same (c c' : Cell) : Prop where
  known : c'.known = c.known
  stored : c'.stored = c.stored
  copy {row : Row} (h : c'.copy = some row) :
    c.copy = some row ∨ ∃ entry, c.stored = some entry ∧ entry.row = row

theorem Path.same (h : Path now Kind.Quiet c c') : c.Same c' := by
  refine h.keeps (P := c.Same) ?_ ⟨rfl, rfl, .inl⟩
  intro kind d d' hkind hstep hd
  cases hstep with
  | drop =>
    refine ⟨hd.known, hd.stored, ?_⟩
    intro row hrow
    cases hrow
  | promote stored =>
    refine ⟨hd.known, hd.stored, ?_⟩
    rintro row ⟨⟩
    exact .inr ⟨_, hd.stored.symm.trans stored, rfl⟩
  | learn | create | rewrite | retime | forget | purge => obtain hkind | hkind := hkind <;> cases hkind

/-- A stored entry that memory has not is seen wherever it is. -/
theorem Same.visible? (h : c.Same c') (entry : Entry) (copy : c.copy = none)
    (stored : c.stored = some entry) (hvisible : entry.row.isVisible now = true) :
    c'.visible? now = some entry.row := by
  have hheld : c'.held = some entry.row := by
    apply held_of_stored _ (h.stored.trans stored)
    cases hcopy : c'.copy with
    | none => exact .inl rfl
    | some row =>
      obtain hbefore | ⟨found, hfound, rfl⟩ := h.copy hcopy
      · cases copy.symm.trans hbefore
      · cases stored.symm.trans hfound
        exact .inr rfl
  rw [Cell.visible?, hheld, Option.filter_some, hvisible, if_pos rfl]

end Path
end Cell
end TierCache
