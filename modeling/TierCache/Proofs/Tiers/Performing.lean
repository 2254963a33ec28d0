import TierCache.Proofs.Tiers.Sweeping
import TierCache.Proofs.Value.Edit

/-!
Every operation, and every run of them, keeps both tiers in order. What an operation is given has to
fit into the store, if the store is picky. The row of a key that is seen stays what it is until an
operation is for the key.
-/
namespace TierCache
open Std

namespace Operation

variable {α : Type}

/-- What an operation may write fits into the store: its region has a name, and JSON can hold the value
that is set. -/
def Fits (picky : Prop) : Operation α → Prop
  | .setValue region _ value expiresAt => picky →
      region ≠ "" ∧ value.Encodable ∧ ∀ t ∈ expiresAt, t ≤ Text.maxUnsigned
  | .typed region _ _ => picky → region ≠ ""
  | _ => True

theorem fits_any (op : Operation α) : op.Fits False := by
  cases op <;> first | trivial | exact False.elim

/-- An operation is not for a key, unless it only asks for it, and not for the whole region of the key. -/
def Avoids (region key : String) : Operation α → Prop
  | .setValue other name _ _ | .expire other name _ | .persist other name | .typed other name _ =>
      ¬(other = region ∧ name = key)
  | .delete other names => ¬(other = region ∧ key ∈ names)
  | .deleteRegion other => other ≠ region
  | _ => True

/-- Whether an operation asks for keys. -/
def asks : Operation α → Bool
  | .read .. | .get .. | .countLive .. | .ttl .. | .typeOf .. | .keys .. | .scan .. => true
  | _ => false

end Operation

/-- A call fits, and the clock reads an unsigned integer of 64 bits. -/
def Call.Fits (picky : Prop) (c : Call) : Prop := InRange picky c.now ∧ c.operation.Fits picky

theorem Call.fits_any (c : Call) : c.Fits False := ⟨False.elim, c.operation.fits_any⟩

namespace Tiers

variable {σ α β : Type} [Store σ] {picky : Prop} {stands : σ → Table → Prop}
  {spared : String → String → Prop} {since : Nat} {e : Engine σ} {t : Table}

/-- Some rows stand behind the engine. -/
def Stand (picky : Prop) (stands : σ → Table → Prop) (spared : String → String → Prop)
    (since : Nat) (e : Engine σ) : Prop :=
  ∃ t, Tiers picky stands spared since e t

/-- Some rows stand behind the engine, of which that of one key alone may differ from those before. -/
def StandBeside (picky : Prop) (stands : σ → Table → Prop) (spared : String → String → Prop)
    (since : Nat) (t : Table) (region key : String) (e : Engine σ) : Prop :=
  ∃ t', Tiers picky stands spared since e t' ∧ t.KeepsOthers region key t'

section
variable (dependable : Dependable picky stands) (h : Tiers picky stands spared since e t)
include dependable h

theorem get {now : Nat} (hle : since ≤ now) (hnow : InRange picky now) (region key : String) :
    ∃ e', e.get now region key = ((match (e.cell t region key).visible? now with
        | some ⟨.string text, _, _⟩ => some text
        | _ => none), e') ∧ Rested picky stands spared since e t e' := by
  obtain ⟨found, e', hget, hseen, hrested⟩ := h.getEntry dependable hle hnow region key
  simp only [Engine.get, hget, ← hseen.row]
  cases found with
  | none => exact ⟨_, rfl, hrested.of_regions hrested.tiers.stored rfl⟩
  | some entry =>
    obtain ⟨_, _, value, _, _, _, _⟩ := entry
    cases value <;> exact ⟨_, rfl, hrested.of_regions hrested.tiers.stored rfl⟩

theorem regionNames : Rested picky stands spared since e t e.regionNames.2 := by
  obtain ⟨names, s, hregions, hs⟩ := dependable.regions h.stored
  simp only [Engine.regionNames, hregions]
  exact .withStore h hs

theorem regionCounts (region : String) :
    Rested picky stands spared since e t (e.regionCounts region).2 := by
  obtain ⟨n, s, hcount, hs⟩ := dependable.count h.stored region
  simp only [Engine.regionCounts, hcount]
  exact .withStore h hs

/-! ### Contents -/

theorem writeBack {region key : String} {entry : Entry} (hfiled : entry.Filed picky region key) :
    StandBeside picky stands spared since t region key (e.writeBack region key entry).2 := by
  unfold Engine.writeBack
  split
  · obtain ⟨t', h', hcell⟩ := h.delete dependable region [key]
    refine ⟨t', h', fun other name hother => ?_⟩
    have hkept := hcell other name
    rw [if_neg fun hgone => hother ⟨hgone.2.1, (List.mem_singleton.mp hgone.2.2).symm⟩] at hkept
    exact congrArg Cell.stored hkept
  · obtain ⟨rfl, rfl, hfits⟩ := hfiled
    obtain ⟨createdAt, e', hput, hwrote⟩ := h.put dependable hfits
    rw [hput]
    exact ⟨_, hwrote.tiers, t.keepsOthers_save { entry with createdAt, resident := false }⟩

/-- A change that makes of the entry's value one that JSON can hold. -/
theorem editEntry {region key : String} {entry : Entry} (hfiled : entry.Filed picky region key)
    (c : Engine.Contents β) (change : β → Except CacheError (Edit α β))
    (hchange : ∀ b edit, entry.value.Encodable → c.of? entry.value = some b →
      change b = .ok edit → (c.wrap edit.after).Encodable) :
    StandBeside picky stands spared since t region key (e.editEntry region key c change entry).2 := by
  unfold Engine.editEntry
  cases hof : c.of? entry.value with
  | none => exact ⟨t, h, t.keepsOthers_self region key⟩
  | some contents =>
    dsimp only
    cases hedit : change contents with
    | error err => exact ⟨t, h, t.keepsOthers_self region key⟩
    | ok edit =>
      dsimp only
      cases edit.changed with
      | false => exact ⟨t, h, t.keepsOthers_self region key⟩
      | true =>
        have hafter : ({ entry with value := c.wrap edit.after } : Entry).Filed picky region key := by
          refine ⟨hfiled.ofRegion, hfiled.ofKey, fun hpicky => ?_⟩
          obtain ⟨hregion, hstorable⟩ := hfiled.fits hpicky
          exact ⟨hregion, hchange contents edit hstorable.value hof hedit, hstorable.createdAt,
            hstorable.lastAccessedAt, hstorable.expiresAt⟩
        have hwritten : StandBeside picky stands spared since t region key
            (e.writeBack region key { entry with value := c.wrap edit.after }).2 :=
          h.writeBack dependable hafter
        simp only [if_true]
        cases hwrite : e.writeBack region key { entry with value := c.wrap edit.after } with
        | mk reply e' =>
          rw [hwrite] at hwritten
          cases reply <;> exact hwritten

theorem run {now : Nat} (hle : since ≤ now) (hnow : InRange picky now) {region key : String}
    (hregion : picky → region ≠ "") {plan : Typed.Plan α} (hplan : plan.Encodes) :
    StandBeside picky stands spared since t region key (plan.run e now region key).2 := by
  cases plan with
  | refuse err => exact ⟨t, h, t.keepsOthers_self region key⟩
  | upsert c change =>
    obtain ⟨found, e', hget, hseen, hrested⟩ := h.getEntry dependable hle hnow region key
    simp only [Typed.Plan.run, Engine.upsert, hget]
    cases found with
    | some entry =>
      exact hrested.tiers.editEntry dependable (hseen.filed rfl) c change fun b edit => hplan _ b edit
    | none =>
      have hempty : (Entry.create now region key (.empty c.dataType) none).Fits picky := fun hpicky =>
        ⟨hregion hpicky, Value.encodable_empty c.dataType, hnow hpicky, hnow hpicky,
          fun _ hnever => by cases hnever⟩
      exact hrested.tiers.editEntry dependable ⟨rfl, rfl, hempty⟩ c change fun b edit => hplan _ b edit
  | update c absent change =>
    obtain ⟨found, e', hget, hseen, hrested⟩ := h.getEntry dependable hle hnow region key
    simp only [Typed.Plan.run, Engine.update, hget]
    cases found with
    | some entry =>
      refine hrested.tiers.editEntry dependable (hseen.filed rfl) c (fun b => .ok (change b)) ?_
      rintro b _ hvalue hof ⟨⟩
      exact hplan _ b hvalue hof
    | none => exact ⟨t, hrested.tiers, t.keepsOthers_self region key⟩
  | inspect c absent read =>
    obtain ⟨found, e', hget, hseen, hrested⟩ := h.getEntry dependable hle hnow region key
    simp only [Typed.Plan.run, Engine.inspect, hget]
    cases found with
    | some entry =>
      dsimp only
      cases c.of? entry.value <;> exact ⟨t, hrested.tiers, t.keepsOthers_self region key⟩
    | none => exact ⟨t, hrested.tiers, t.keepsOthers_self region key⟩

/-! ### Operations -/

/-- Who asks leaves both tiers as they are, copies of rows in memory aside. -/
theorem asked {now : Nat} (hle : since ≤ now) (hnow : InRange picky now) {op : Operation α}
    (hop : op.asks = true) : Rested picky stands spared since e t (e.perform now op).2 := by
  have hpeeked (region key : String) :
      Rested picky stands spared since e t (e.peek now region key).2 := by
    obtain ⟨found, s, hpeek, -, hrested⟩ := h.peek dependable now region key
    rwa [hpeek]
  have hlisted (region pattern : String) :
      Rested picky stands spared since e t (e.keys now region pattern).2 := by
    obtain ⟨names, e', hkeys, -, -, hrested⟩ := h.keys dependable now region pattern
    rwa [hkeys]
  cases op with
  | read region key =>
    obtain ⟨found, e', hget, -, hrested⟩ := h.getEntry dependable hle hnow region key
    simpa only [Engine.perform, hget] using hrested
  | get region key =>
    obtain ⟨e', hget, hrested⟩ := h.get dependable hle hnow region key
    rwa [Engine.perform, hget]
  | countLive region keys =>
    obtain ⟨e', hcount, hrested⟩ := h.exists? dependable now region keys
    rwa [Engine.perform, hcount]
  | ttl region key => exact hpeeked region key
  | typeOf region key => exact hpeeked region key
  | keys region pattern => exact hlisted region pattern
  | scan region cursor pattern count => exact hlisted region pattern
  | _ => cases hop

/-- The row of a key that is seen and not spared stays, unless the operation is for the key. -/
theorem perform_keeps {now : Nat} (hle : since ≤ now) (hnow : InRange picky now) {op : Operation α}
    (hop : op.Fits picky) :
    ∃ t', Tiers picky stands spared since (e.perform now op).2 t' ∧
      ∀ region key, op.Avoids region key → ¬spared region key → (e.cell t region key).Live now →
        t'.get? region key = t.get? region key := by
  cases op with
  | setValue region key value expiresAt =>
    have hfits : (Entry.create now region key value expiresAt).Fits picky := fun hpicky =>
      ⟨(hop hpicky).1, (hop hpicky).2.1, hnow hpicky, hnow hpicky, (hop hpicky).2.2⟩
    obtain ⟨createdAt, e', hset, hput⟩ := h.setValue dependable hfits
    rw [Engine.perform, hset]
    exact ⟨_, hput.tiers, fun other name hother _ _ => t.keepsOthers_save _ other name hother⟩
  | read | get | countLive | ttl | typeOf | keys | scan =>
    exact ⟨t, (h.asked dependable hle hnow rfl).tiers, fun _ _ _ _ _ => rfl⟩
  | expire region key seconds =>
    obtain ⟨t', h', hcell⟩ := h.expire dependable hle region key seconds
    refine ⟨t', h', fun other name hother _ _ => ?_⟩
    exact congrArg Cell.stored ((hcell other name).trans (if_neg fun hname => hother hname.2))
  | persist region key =>
    obtain ⟨t', h', hothers⟩ := h.persist dependable hle region key
    exact ⟨t', h', fun other name hother _ _ => hothers other name hother⟩
  | delete region keys =>
    obtain ⟨t', h', hcell⟩ := h.delete dependable region keys
    refine ⟨t', h', fun other name hother _ _ => ?_⟩
    exact congrArg Cell.stored ((hcell other name).trans (if_neg fun hname => hother hname.2))
  | deleteRegion region =>
    obtain ⟨t', h', hcell⟩ := h.deleteRegion dependable region
    refine ⟨t', h', fun other name hother _ _ => ?_⟩
    exact congrArg Cell.stored ((hcell other name).trans (if_neg fun hname => hother hname.2))
  | sweep =>
    obtain ⟨t', h', hswept⟩ := h.sweep dependable now
    refine ⟨t', h', fun region key _ hkey live => (hswept region key live).trans ?_⟩
    have horderly : (e.cell t region key).Orderly False since :=
      ⟨(h.cells region key).agrees, .inr ((h.cells region key).listed.resolve_left hkey)⟩
    exact horderly.stored_of_live live
  | prime =>
    obtain ⟨entries, s, -, -, h', -⟩ := h.prime dependable now
    exact ⟨t, h', fun _ _ _ _ _ => rfl⟩
  | regionNames => exact ⟨t, (h.regionNames dependable).tiers, fun _ _ _ _ _ => rfl⟩
  | regionCounts region =>
    exact ⟨t, (h.regionCounts dependable region).tiers, fun _ _ _ _ _ => rfl⟩
  | knownCount => exact ⟨t, h, fun _ _ _ _ _ => rfl⟩
  | lookups => exact ⟨t, h, fun _ _ _ _ _ => rfl⟩
  | typed region key op =>
    obtain ⟨t', h', hothers⟩ : StandBeside picky stands spared since t region key
        (e.perform now (.typed region key op)).2 := by
      rw [Engine.perform, op.performTyped_eq]
      exact h.run dependable hle hnow hop op.plan_encodes
    exact ⟨t', h', fun other name hother _ _ => hothers other name hother⟩

theorem perform {now : Nat} (hle : since ≤ now) (hnow : InRange picky now) {op : Operation α}
    (hop : op.Fits picky) : Stand picky stands spared since (e.perform now op).2 := by
  obtain ⟨t', h', -⟩ := h.perform_keeps dependable hle hnow hop
  exact ⟨t', h'⟩

end

/-- A run of operations keeps both tiers in order. -/
theorem performAll (dependable : Dependable picky stands) (calls : List Call)
    (hcalls : ∀ c ∈ calls, since ≤ c.now ∧ c.Fits picky)
    (h : Stand picky stands spared since e) :
    Stand picky stands spared since (e.performAll calls) := by
  induction calls generalizing e with
  | nil => exact h
  | cons call rest ih =>
    obtain ⟨t, ht⟩ := h
    obtain ⟨hle, hnow, hop⟩ := hcalls call (.head rest)
    exact ih (fun c hc => hcalls c (.tail call hc)) (ht.perform dependable hle hnow hop)

end Tiers
end TierCache
