import TierCache.Proofs.Engine.Operation
import TierCache.Proofs.Outage.Removing

/-!
Operations on contents while the store may fail. What an operation does to a value is told without a
cache; an operation on a key that is alive does that to the value of its row, or is refused and leaves
the row as it was.
-/
namespace TierCache
open Std Engine

namespace Typed

variable {α β : Type}

/-- What becomes of a value that contents are put back into: an emptied container is removed. -/
def left? (v : Value) : Option Value := if v.isEmptyContainer then none else some v

/-- What a change does to a value: its result, and the value that is left, if any. -/
def change (c : Contents β) (f : β → Except CacheError (Edit α β)) (v : Value) :
    Except CacheError (α × Option Value) :=
  match c.of? v with
  | none => .error .wrongType
  | some contents => match f contents with
    | .error err => .error err
    | .ok edit => .ok (edit.result, if edit.changed then left? (c.wrap edit.after) else some v)

/-- What an operation does to a value that is there. -/
def Plan.onValue : Plan α → Value → Except CacheError (α × Option Value)
  | .refuse err, _ => .error err
  | .upsert c f, v => change c f v
  | .update c _ f, v => change c (fun contents => .ok (f contents)) v
  | .inspect c _ read, v => match c.of? v with
    | some contents => .ok (read contents, some v)
    | none => .error .wrongType

def Plan.Reads : Plan α → Prop
  | .inspect .. => True
  | .refuse _ | .upsert .. | .update .. => False

/-- What an operation may do to its key apart from moving it between the tiers. -/
def Plan.kinds : Plan α → List Cell.Kind
  | .upsert .. => [.create, .forget]
  | .update .. => [.rewrite, .forget]
  | .refuse _ | .inspect .. => []

/-- An operation was refused and left the row as it was, or it did to the row's value what it does to
a value. -/
def CarriedOut (row : Entry) (does : Except CacheError (α × Option Value))
    (reply : Except CacheError α) (after : Option Entry) : Prop :=
  (∃ err, reply = .error err) ∧ after = some row ∨
    ∃ a left, does = .ok (a, left) ∧ reply = .ok a ∧ after.map (·.value) = left

end Typed

namespace Engine

variable {σ : Type} {e e' : Engine σ} {region key : String}

theorem isSome_region?_setRegion {other : String} {s : Region} (h : (e.region? region).isSome) :
    ((e.setRegion other s).region? region).isSome := by
  rw [region?_setRegion]
  split
  · rfl
  · exact h

theorem isSome_region?_ensureRegion : ((e.ensureRegion region).region? region).isSome := by
  obtain ⟨⟨s, hs⟩, heq⟩ | ⟨-, heq⟩ := e.ensureRegion_cases region
  · rw [heq, hs]
    rfl
  · rw [heq, region?_setRegion, if_pos rfl]
    rfl

theorem isSome_region?_of_regions (h : e'.regions = e.regions) (hregion : (e.region? region).isSome) :
    (e'.region? region).isSome := by
  rwa [region?, h]

variable [Store σ] (now : Nat)

theorem isSome_region?_readEntry (key : String) (h : (e.region? region).isSome) :
    ((e.readEntry now region key).2.region? region).isSome := by
  unfold readEntry
  dsimp only
  split
  · split
    · exact h
    · exact isSome_region?_setRegion h
  · split
    · exact h
    · rename_i entry s _
      have hclaimed (claimed : Engine σ)
          (hregions : claimed.regions = ({ e with store := s } : Engine σ).regions) :
          (claimed.region? region).isSome :=
        isSome_region?_of_regions hregions h
      have htry := ({ e with store := s } : Engine σ).regions_tryReserve
      split
      · rename_i e₁ heq
        rw [heq] at htry
        obtain hheld | ⟨-, hsame⟩ :=
          e₁.regions_install region { entry.touch now with resident := true } true
        · exact isSome_region?_of_regions hheld (isSome_region?_setRegion (hclaimed e₁ htry))
        · exact isSome_region?_of_regions hsame (hclaimed e₁ htry)
      · rename_i e₁ heq
        rw [heq] at htry
        exact hclaimed e₁ htry

/-- A key that is found is one of a region that is there. -/
theorem isSome_region?_getEntry {entry : Entry} (h : e.getEntry now region key = (some entry, e')) :
    (e'.region? region).isSome := by
  unfold getEntry at h
  split at h
  · rename_i hregion
    have hread := isSome_region?_readEntry now key (Option.isSome_of_eq_some hregion)
    rwa [h] at hread
  · split at h
    · cases h
    · rename_i s _
      have hthere : ((({ e with store := s } : Engine σ).ensureRegion region).region? region).isSome :=
        isSome_region?_ensureRegion
      have hread := isSome_region?_readEntry now key hthere
      rwa [h] at hread

end Engine

/-- A change of a key ends: with an error when it did no more than a reader, or with what it does to a
value and with that done. A key that was found is gone if nothing is left of its value. -/
def Edits {σ α : Type} (stands : σ → Table → Prop) (now : Nat) (region key : String)
    (kinds : List Cell.Kind) (found : Prop) (value : Value)
    (does : Except CacheError (α × Option Value)) (e : Engine (Faulty σ)) (t : Table) :
    Except CacheError α × Engine (Faulty σ) → Prop
  | (.error _, e') => Moves stands now .quiet [] e t e' t
  | (.ok a, e') => ∃ t' told left, does = .ok (a, left) ∧
    Done stands now (.only region key kinds) told e t e' t' ∧
    (found → left = none → Gone e e' t' region key) ∧
    ∀ v, left = some v → (t.get? region key).map (·.value) = some value →
      (t'.get? region key).map (·.value) = some v

namespace Edits

variable {σ α : Type} {stands : σ → Table → Prop} {now : Nat} {region key : String}
  {kinds : List Cell.Kind} {found seen : Prop} {value : Value}
  {does : Except CacheError (α × Option Value)} {e e₁ e' : Engine (Faulty σ)} {t : Table}
  {reply : Except CacheError α}

theorem after (h : Edits stands now region key kinds found value does e₁ t (reply, e'))
    (hmoves : Moves stands now .quiet [] e t e₁ t) (hfound : seen → found) :
    Edits stands now region key kinds seen value does e t (reply, e') := by
  cases reply with
  | error err => exact hmoves.trans h
  | ok a =>
    obtain ⟨t', told, left, hdoes, hdone, hgone, hleft⟩ := h
    exact ⟨t', told, left, hdoes, hdone.after (hmoves.mono (Reach.quiet_onto _ _)),
      fun hseen hnone => (hgone (hfound hseen) hnone).after hmoves.later, hleft⟩

theorem settles (h : Edits stands now region key kinds found value does e t (reply, e')) :
    Settles stands now (.only region key kinds) e t (reply, e') := by
  cases reply with
  | error err => exact h
  | ok a =>
    obtain ⟨t', told, left, -, hdone, -⟩ := h
    exact ⟨t', told, hdone⟩

/-- If the deletes were answered, the row holds what is left of its value. -/
theorem carriedOut (h : Edits stands now region key kinds found value does e t (reply, e'))
    (hfound : found) : ∃ t', Backed stands e' t' ∧ ∀ row, t.get? region key = some row →
      row.value = value → (∀ a, does = .ok (a, none) → e.store.Answered e'.store .delete) →
      Typed.CarriedOut row does reply (t'.get? region key) := by
  cases reply with
  | error err => exact ⟨t, h.backed, fun row hrow _ _ => .inl ⟨⟨err, rfl⟩, hrow⟩⟩
  | ok a =>
    obtain ⟨t', told, left, hdoes, hdone, hgone, hleft⟩ := h
    refine ⟨t', hdone.moves.backed, ?_⟩
    intro row hrow hvalue answered
    refine .inr ⟨a, left, hdoes, rfl, ?_⟩
    cases left with
    | none =>
      have habsent := (hgone hfound rfl).absent (answered a hdoes)
      exact congrArg (Option.map (·.value)) (congrArg Cell.stored habsent)
    | some v => exact hleft v rfl (by rw [hrow, ← hvalue]; rfl)

end Edits

namespace Backed

variable {σ α β : Type} [Store σ] {stands : σ → Table → Prop} (reliable : Reliable stands)
  {e : Engine (Faulty σ)} {t : Table}
include reliable

/-- An entry is written back to the row of its key, or its key removed. -/
theorem writeBack (h : Backed stands e t) {now : Nat} {region key : String} {kind : Cell.Kind}
    (hkind : (e.cell t region key).Writable now kind) (entry : Entry)
    (hname : entry.region = region ∧ entry.key = key) :
    ∃ reply e', e.writeBack region key entry = (reply, e') ∧
      ((∃ err, reply = .error err) ∧ Moves stands now .quiet [] e t e' t ∨
        reply = .ok () ∧ ∃ t' told,
          Done stands now (.only region key [kind, .forget]) told e t e' t' ∧
          ((e.region? region).isSome → Typed.left? entry.value = none → Gone e e' t' region key) ∧
          ∀ v, Typed.left? entry.value = some v → (t'.get? region key).map (·.value) = some v) := by
  unfold Engine.writeBack Typed.left?
  split
  · obtain ⟨t', told, hdone, hgone⟩ := h.deleteKey reliable now region key
    refine ⟨.ok (), _, rfl, .inr ⟨rfl, t', told, hdone.mono ?_, fun hregion _ => hgone hregion, nofun⟩⟩
    exact Reach.onto_mono (fun _ _ hname => hname) (List.subset_cons_self kind _)
  · obtain ⟨rfl, rfl⟩ := hname
    obtain ⟨reply, e', hput, ⟨createdAt, place, rfl, hwrote⟩ | ⟨herr, -, hmoves⟩⟩ :=
      h.put reliable now entry
    · refine ⟨.ok (), e', hput, .inr ⟨rfl, _, _,
        hwrote.done { entry with createdAt } hkind (.head _), nofun, ?_⟩⟩
      rintro v ⟨⟩
      rw [t.get?_save, if_pos rfl]
      rfl
    · exact ⟨reply, e', hput, .inl ⟨herr, hmoves⟩⟩

/-- A change of an entry that holds the value of the row is a change of that value. -/
theorem editEntry (h : Backed stands e t) (now : Nat) {region key : String} {kind : Cell.Kind}
    (hkind : (e.cell t region key).Writable now kind) (entry : Entry)
    (hname : entry.region = region ∧ entry.key = key) (c : Contents β)
    (f : β → Except CacheError (Edit α β)) :
    Edits stands now region key [kind, .forget] (e.region? region).isSome entry.value
      (Typed.change c f entry.value) e t (e.editEntry region key c f entry) := by
  unfold Engine.editEntry Typed.change
  cases c.of? entry.value with
  | none => exact .refl h
  | some contents =>
    dsimp only
    cases f contents with
    | error err => exact .refl h
    | ok edit =>
      dsimp only
      cases edit.changed with
      | false =>
        exact ⟨t, [], some entry.value, rfl, .of_moves (.refl h), nofun, fun v hv hrow => hv ▸ hrow⟩
      | true =>
        obtain ⟨reply, e', hwrite, ⟨⟨err, rfl⟩, hmoves⟩ | ⟨rfl, t', told, hdone, hgone, hleft⟩⟩ :=
          h.writeBack reliable hkind { entry with value := c.wrap edit.after } hname
        · simp only [if_true, hwrite]
          exact hmoves
        · simp only [if_true, hwrite]
          exact ⟨t', told, _, rfl, hdone, hgone, fun v hv _ => hleft v hv⟩

/-- An operation on a key that was found does to the value found what it does to a value. -/
theorem runPlan_found (h : Backed stands e t) {now : Nat} {region key : String} {entry : Entry}
    {e₁ : Engine (Faulty σ)} (hget : e.getEntry now region key = (some entry, e₁))
    (plan : Typed.Plan α) : Edits stands now region key plan.kinds True entry.value
      (plan.onValue entry.value) e t (plan.run e now region key) := by
  obtain ⟨found, e₂, hget', hmoves, hshown, hfinds⟩ := h.getEntry reliable now region key
  cases hget.symm.trans hget'
  have hagrees := (hshown.live rfl).2
  have hname := And.intro hagrees.ofRegion hagrees.ofKey
  have hthere (_ : True) := isSome_region?_getEntry now hget
  cases plan with
  | refuse err => exact .refl h
  | upsert c f =>
    simp only [Typed.Plan.run, Engine.upsert, hget]
    exact (hmoves.backed.editEntry reliable now (.inl rfl) entry hname c f).after hmoves hthere
  | update c absent f =>
    simp only [Typed.Plan.run, Engine.update, hget]
    exact (hmoves.backed.editEntry reliable now (.inr ⟨rfl, entry.row, hfinds entry rfl⟩) entry hname c
      fun contents => .ok (f contents)).after hmoves hthere
  | inspect c absent read =>
    simp only [Typed.Plan.run, Typed.Plan.onValue, Engine.inspect, hget]
    cases c.of? entry.value with
    | none => exact hmoves
    | some contents =>
      exact ⟨t, [], some entry.value, rfl, .of_moves (hmoves.mono (Reach.quiet_onto _ _)), by simp,
        fun v hv hrow => hv ▸ hrow⟩

/-- An operation on a key that was not found may create it. -/
theorem runPlan_lost (h : Backed stands e t) {now : Nat} {region key : String}
    {e₁ : Engine (Faulty σ)} (hget : e.getEntry now region key = (none, e₁)) (plan : Typed.Plan α) :
    (∃ err, plan.run e now region key = (.error err, e)) ∨
      Settles stands now (.only region key plan.kinds) e₁ t (plan.run e now region key) := by
  obtain ⟨found, e₂, hget', hmoves, -, -⟩ := h.getEntry reliable now region key
  cases hget.symm.trans hget'
  have hquiet (kinds : List Cell.Kind) :=
    Reach.quiet_onto (fun other name => region = other ∧ key = name) kinds
  cases plan with
  | refuse err => exact .inl ⟨err, rfl⟩
  | upsert c f =>
    simp only [Typed.Plan.run, Engine.upsert, hget]
    have hedits := hmoves.backed.editEntry reliable now (.inl rfl)
      (.create now region key (.empty c.dataType) none) ⟨rfl, rfl⟩ c f
    exact .inr hedits.settles
  | update c absent f =>
    simp only [Typed.Plan.run, Engine.update, hget]
    exact .inr (.idle (.refl hmoves.backed) absent (hquiet _))
  | inspect c absent read =>
    simp only [Typed.Plan.run, Engine.inspect, hget]
    exact .inr (.idle (.refl hmoves.backed) absent (hquiet _))

theorem runPlan_settles (h : Backed stands e t) (now : Nat) (region key : String)
    (plan : Typed.Plan α) :
    Settles stands now (.only region key plan.kinds) e t (plan.run e now region key) := by
  obtain ⟨found, e₁, hget, hmoves, -, -⟩ := h.getEntry reliable now region key
  cases found with
  | none =>
    obtain ⟨err, hrun⟩ | hsettles := h.runPlan_lost reliable hget plan
    · rw [hrun]
      exact .refl h
    · exact hsettles.after hmoves (Reach.quiet_onto _ _)
  | some entry => exact (h.runPlan_found reliable hget plan).settles

/-- An operation on a key that is alive is carried out on the value of its row. -/
theorem runPlan (h : Backed stands e t) (now : Nat) (region key : String) (plan : Typed.Plan α) :
    ∃ reply e' t', plan.run e now region key = (reply, e') ∧ e.store.Later e'.store ∧
      Backed stands e' t' ∧
      ∀ row, t.get? region key = some row → Alive e t now e'.store region key →
        (∀ a, plan.onValue row.value = .ok (a, none) → e.store.Answered e'.store .delete) →
        Typed.CarriedOut row (plan.onValue row.value) reply (t'.get? region key) := by
  obtain ⟨found, e₁, hget, hmoves, hshown, -⟩ := h.getEntry reliable now region key
  cases found with
  | none =>
    obtain ⟨err, hrun⟩ | hsettles := h.runPlan_lost reliable hget plan
    · exact ⟨_, e, t, hrun, .refl _, h, fun row hrow _ _ => .inl ⟨⟨err, rfl⟩, hrow⟩⟩
    · obtain ⟨t', told, hrest⟩ := hsettles.moves (Reach.quiet_onto _ _)
      refine ⟨_, _, t', rfl, hmoves.later.trans hrest.later, hrest.backed, ?_⟩
      intro row _ halive _
      exact absurd (halive.imp_right (And.imp_left (·.first hrest.later))) hshown.not_alive
  | some entry =>
    have hedits := h.runPlan_found reliable hget plan
    obtain ⟨_, _, hrun⟩ := hedits.settles.moves (Reach.quiet_onto _ _)
    obtain ⟨t', h', hcarried⟩ := hedits.carriedOut trivial
    refine ⟨_, _, t', rfl, hrun.later, h', ?_⟩
    intro row hrow _ answered
    have hvalue : row.value = entry.value := congrArg Row.value ((hshown.live rfl).2.ofRow hrow)
    rw [hvalue] at answered ⊢
    exact hcarried row hrow hvalue answered

end Backed
end TierCache
