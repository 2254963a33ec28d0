import TierCache.Proofs.Outage.Editing
import TierCache.Proofs.Outage.Sweeping

/-!
What each operation may do to which keys while the store may fail, whether it is refused, and what runs
of operations keep.
-/
namespace TierCache
open Std

namespace Operation

/-- What an operation may do, apart from moving entries between the tiers. -/
def does : {α : Type} → Operation α → Reach
  | _, .setValue region key _ _ => .only region key [.create]
  | _, .expire region key _ => .only region key [.retime, .forget]
  | _, .persist region key => .only region key [.retime]
  | _, .delete region names => .anyOf region names [.forget]
  | _, .deleteRegion region => .onto (fun other _ => region = other) [.forget]
  | _, .sweep => .sweeping
  | _, .prime => .onto (fun _ _ => True) [.learn]
  | _, .typed region key op => .only region key op.plan.kinds
  | _, _ => .quiet

/-- An operation that asks and changes nothing. -/
def Reads : {α : Type} → Operation α → Prop
  | _, .setValue .. | _, .expire .. | _, .persist .. | _, .delete .. | _, .deleteRegion ..
  | _, .sweep | _, .prime => False
  | _, .typed _ _ op => op.plan.Reads
  | _, _ => True

/-- The reply to an operation that can fail is an error. -/
def Refused : {α : Type} → Operation α → α → Prop
  | _, .setValue .., reply => ∃ err, reply = .error err
  | _, .expire .., reply => ∃ err, reply = .error err
  | _, .persist .., reply => ∃ err, reply = .error err
  | _, .deleteRegion .., reply => ∃ err, reply = .error err
  | _, .prime, reply => ∃ err, reply = .error err
  | _, .typed .., reply => ∃ err, reply = .error err
  | _, _, _ => False

/-- What is told of an operation even if it is refused: that a region is deleted, unless it is the
default one. -/
def foretells (defaultRegion : String) : {α : Type} → Operation α → List Signal
  | _, .deleteRegion region =>
    if region = defaultRegion then [] else [.mutation (.deleteRegion region)]
  | _, _ => []

theorem quiet_does {α : Type} (op : Operation α) (region key : String) (kind : Cell.Kind)
    (h : Reach.quiet region key kind) : op.does region key kind := by
  cases op with
  | setValue | expire | persist | delete | deleteRegion | sweep | prime | typed => exact .inl h
  | _ => exact h

end Operation

namespace Backed

variable {σ α : Type} [Store σ] {stands : σ → Table → Prop} (reliable : Reliable stands)
  {e : Engine (Faulty σ)} {t : Table}
include reliable

/-! ### Reading many keys -/

theorem countLive (h : Backed stands e t) (now : Nat) (region : String) (keys : List String) :
    Moves stands now .quiet [] e t (e.countLive now region keys).2 t := by
  induction keys generalizing e with
  | nil => exact .refl h
  | cons key rest ih =>
    rw [Engine.countLive]
    split
    · obtain ⟨found, s, hpeek, hmoves, -, -⟩ := h.peek reliable now region key
      rw [hpeek]
      exact hmoves.trans (ih hmoves.backed)
    · exact ih h

theorem exists? (h : Backed stands e t) (now : Nat) (region : String) (keys : List String) :
    Moves stands now .quiet [] e t (e.exists? now region keys).2 t := by
  unfold Engine.exists?
  split
  · exact h.countLive reliable now region keys
  · exact .refl h

theorem filterLive (h : Backed stands e t) (now : Nat) (region : String) (keys : List String) :
    Moves stands now .quiet [] e t (e.filterLive now region keys).2 t := by
  induction keys generalizing e with
  | nil => exact .refl h
  | cons key rest ih =>
    obtain ⟨found, s, hpeek, hmoves, -, -⟩ := h.peek reliable now region key
    rw [Engine.filterLive, hpeek]
    exact hmoves.trans (ih hmoves.backed)

theorem keys (h : Backed stands e t) (now : Nat) (region pattern : String) :
    Moves stands now .quiet [] e t (e.keys now region pattern).2 t := by
  unfold Engine.keys
  split
  · exact h.filterLive reliable now region _
  · exact .refl h

theorem get (h : Backed stands e t) (now : Nat) (region key : String) :
    Moves stands now .quiet [] e t (e.get now region key).2 t := by
  obtain ⟨found, e', hget, hmoves, -, -⟩ := h.getEntry reliable now region key
  have hcounted (stats : Stats) : Moves stands now .quiet [] e t { e' with stats } t :=
    ⟨hmoves.backed.of_eq rfl rfl, hmoves.later, hmoves.signals, hmoves.path⟩
  unfold Engine.get
  rw [hget]
  split
  · rename_i heq
    cases heq
    exact hcounted _
  · rename_i heq
    cases heq
    exact hcounted _

/-! ### Regions -/

omit [Store σ] reliable in
/-- A row that is there is made known, and resident if a slot is free. -/
theorem primeEntry (h : Backed stands e t) (now : Nat) {entry : Entry}
    (hrow : t.get? entry.region entry.key = some entry) :
    Moves stands now (.onto (fun _ _ => True) [.learn]) [] e t (e.primeEntry entry) t := by
  have hensured : Moves stands now (.onto (fun _ _ => True) [.learn]) [] e t
      (e.ensureRegion entry.region) t := .ensureRegion h entry.region
  have hlearned : Moves stands now (.only entry.region entry.key [.learn]) [] _ t _ t :=
    .know hensured.backed (Option.isSome_of_eq_some hrow)
  have hknown := hensured.trans (hlearned.mono (Reach.onto_mono (fun _ _ _ => trivial)
    (List.Subset.refl _)))
  have htry := hknown.trans (.tryReserve hknown.backed)
  unfold Engine.know at htry
  unfold Engine.primeEntry
  dsimp only
  split
  · rename_i heq
    rw [heq] at htry
    have hput : Moves stands now .quiet [] _ t _ t :=
      .install htry.backed entry.region { entry with resident := true } true hrow rfl rfl
    exact htry.trans (hput.mono (Reach.quiet_onto _ _))
  · rename_i heq
    rwa [heq] at htry

omit [Store σ] reliable in
theorem primeEntries (entries : List Entry) (h : Backed stands e t) (now : Nat)
    (hrows : ∀ entry ∈ entries, t.get? entry.region entry.key = some entry) :
    Moves stands now (.onto (fun _ _ => True) [.learn]) [] e t
      (entries.foldl Engine.primeEntry e) t := by
  induction entries generalizing e with
  | nil => exact .refl h
  | cons entry rest ih =>
    have hfirst := h.primeEntry now (hrows entry (.head rest))
    exact hfirst.trans (ih hfirst.backed fun other hother => hrows other (.tail entry hother))

theorem prime (h : Backed stands e t) (now : Nat) :
    Settles stands now (.onto (fun _ _ => True) [.learn]) e t (e.prime now) := by
  obtain ⟨rows, hperm, s, later, ⟨hload, hs⟩ | ⟨⟨err, hload⟩, hs, -⟩⟩ :=
    Faulty.loadAll reliable h.stored
  · simp only [Engine.prime, hload]
    have hasked : Moves stands now (.onto (fun _ _ => True) [.learn]) [] e t
        { e with store := s } t := .asked (h.withStore hs) later
    have hprimed := hasked.backed.primeEntries (rows.filter (!·.isExpired now)) now ?_
    · exact ⟨t, [], .of_moves (hasked.trans hprimed)⟩
    · intro entry hentry
      obtain ⟨id, hid⟩ := (t.mem_entries entry).mp (hperm.subset (List.mem_filter.mp hentry).1)
      obtain ⟨hregion, hkey⟩ := h.named id entry hid
      rw [Table.get?, hregion, hkey]
      exact hid
  · simp only [Engine.prime, hload]
    exact .asked (h.withStore hs) later

theorem regionNames (h : Backed stands e t) (now : Nat) :
    Moves stands now .quiet [] e t e.regionNames.2 t := by
  obtain ⟨names, s, later, ⟨hregions, hs⟩ | ⟨⟨err, hregions⟩, hs, -⟩⟩ :=
    Faulty.regions reliable h.stored
  · simp only [Engine.regionNames, hregions]
    exact .asked (h.withStore hs) later
  · simp only [Engine.regionNames, hregions]
    exact .asked (h.withStore hs) later

theorem regionCounts (h : Backed stands e t) (now : Nat) (region : String) :
    Moves stands now .quiet [] e t (e.regionCounts region).2 t := by
  obtain ⟨s, later, ⟨hcount, hs⟩ | ⟨⟨err, hcount⟩, hs, -⟩⟩ := Faulty.count reliable h.stored region
  · simp only [Engine.regionCounts, hcount]
    exact .asked (h.withStore hs) later
  · simp only [Engine.regionCounts, hcount]
    exact .asked (h.withStore hs) later

/-! ### Operations -/

theorem inspect (h : Backed stands e t) (now : Nat) (region key : String) {plan : Typed.Plan α}
    (hreads : plan.Reads) : Moves stands now .quiet [] e t (plan.run e now region key).2 t := by
  cases plan with
  | inspect c absent read =>
    obtain ⟨found, e', hget, hmoves, -, -⟩ := h.getEntry reliable now region key
    simp only [Typed.Plan.run, Engine.inspect, hget]
    cases found with
    | none => exact hmoves
    | some entry =>
      dsimp only
      split
      · exact hmoves
      · exact hmoves
  | refuse | upsert | update => exact hreads.elim

/-- A reader moves entries between the tiers and tells nothing. -/
theorem perform_reads (h : Backed stands e t) (now : Nat) {op : Operation α} (hreads : op.Reads) :
    Moves stands now .quiet [] e t (e.perform now op).2 t := by
  cases op with
  | read region key =>
    obtain ⟨found, e', hget, hmoves, -, -⟩ := h.getEntry reliable now region key
    rw [Engine.perform, hget]
    exact hmoves
  | get region key => exact h.get reliable now region key
  | countLive region names => exact h.exists? reliable now region names
  | ttl region key =>
    obtain ⟨found, s, hpeek, hmoves, -, -⟩ := h.peek reliable now region key
    rw [Engine.perform, Engine.ttl, hpeek]
    exact hmoves
  | typeOf region key =>
    obtain ⟨found, s, hpeek, hmoves, -, -⟩ := h.peek reliable now region key
    rw [Engine.perform, Engine.typeOf, hpeek]
    exact hmoves
  | keys region pattern => exact h.keys reliable now region pattern
  | scan region cursor pattern count => exact h.keys reliable now region pattern
  | regionNames => exact h.regionNames reliable now
  | regionCounts region => exact h.regionCounts reliable now region
  | knownCount => exact .refl h
  | lookups => exact .refl h
  | typed region key op =>
    rw [Engine.perform, op.performTyped_eq]
    exact h.inspect reliable now region key hreads
  | setValue | expire | persist | delete | deleteRegion | sweep | prime => exact hreads.elim

/-- An operation that is refused does no more than a reader and tells no more than what it foretells; one
that is not is done. -/
theorem perform_ends (h : Backed stands e t) (now : Nat) (op : Operation α) :
    (op.Refused (e.perform now op).1 →
      Moves stands now .quiet (op.foretells e.defaultRegion) e t (e.perform now op).2 t) ∧
    (¬op.Refused (e.perform now op).1 →
      ∃ t' told, Done stands now op.does told e t (e.perform now op).2 t') := by
  have reads (hreads : op.Reads) : (False →
        Moves stands now .quiet (op.foretells e.defaultRegion) e t (e.perform now op).2 t) ∧
      (¬False → ∃ t' told, Done stands now op.does told e t (e.perform now op).2 t') := by
    have hmoves := (h.perform_reads reliable now hreads).mono op.quiet_does
    exact ⟨False.elim, fun _ => ⟨t, [], .of_moves hmoves⟩⟩
  cases op with
  | setValue region key value expiresAt =>
    exact (h.setValue reliable now region key value expiresAt).ends
  | expire region key seconds => exact (h.expire reliable now region key seconds).ends
  | persist region key => exact (h.persist reliable now region key).ends
  | delete region names =>
    obtain ⟨t', told, hdone, -⟩ := h.delete reliable now region names
    exact ⟨False.elim, fun _ => ⟨t', told, hdone⟩⟩
  | deleteRegion region =>
    obtain ⟨reply, e', hdelete, ⟨herr, hmoves⟩ | ⟨⟨a, rfl⟩, hdone⟩⟩ :=
      h.deleteRegion reliable now region
    · rw [Engine.perform, hdelete]
      exact ⟨fun _ => hmoves, fun hne => absurd herr hne⟩
    · rw [Engine.perform, hdelete]
      refine ⟨?_, fun _ => hdone⟩
      rintro ⟨err, herr⟩
      cases herr
  | sweep =>
    obtain ⟨t', hmoves, -⟩ := h.sweep_moves reliable now
    exact ⟨False.elim, fun _ => ⟨t', [], .of_moves hmoves⟩⟩
  | prime => exact (h.prime reliable now).ends
  | typed region key op =>
    rw [Engine.perform, op.performTyped_eq]
    exact (h.runPlan_settles reliable now region key op.plan).ends
  | read | get | countLive | ttl | typeOf | keys | scan | regionNames | regionCounts | knownCount
  | lookups => exact reads trivial

theorem perform (h : Backed stands e t) (now : Nat) (op : Operation α) :
    ∃ t' told, Moves stands now op.does told e t (e.perform now op).2 t' := by
  obtain ⟨hrefused, hdone⟩ := h.perform_ends reliable now op
  by_cases herr : op.Refused (e.perform now op).1
  · exact ⟨t, _, (hrefused herr).mono op.quiet_does⟩
  · obtain ⟨t', told, hdone⟩ := hdone herr
    exact ⟨t', told, hdone.moves⟩

end Backed

/-! ### Runs -/

/-- What a run of operations does to a key. -/
inductive Runs (region key : String) : List Call → Cell → Cell → Prop
  | nil {c : Cell} : Runs region key [] c c
  | cons {call : Call} {calls : List Call} {c c' c'' : Cell}
      (first : Cell.Path call.now (call.operation.does region key) c c')
      (rest : Runs region key calls c' c'') : Runs region key (call :: calls) c c''

namespace Runs

variable {region key : String} {calls : List Call} {c c' : Cell}

/-- A key that is in no tier comes back by a creating write alone. -/
theorem absent (h : Runs region key calls c c') (hc : c = .absent)
    (hcreate : ∀ call ∈ calls, ¬call.operation.does region key .create) : c' = .absent := by
  induction h with
  | nil => exact hc
  | cons first rest ih =>
    rw [List.forall_mem_cons] at hcreate
    subst hc
    exact ih (first.absent hcreate.1) hcreate.2

/-- A key that is not known becomes known by a write or in priming alone. -/
theorem unknown (h : Runs region key calls c c') (hc : c.known = false)
    (hlearn : ∀ call ∈ calls, ¬call.operation.does region key .create ∧
      ¬call.operation.does region key .rewrite ∧ ¬call.operation.does region key .learn) :
    c'.known = false := by
  induction h with
  | nil => exact hc
  | cons first rest ih =>
    rw [List.forall_mem_cons] at hlearn
    obtain ⟨⟨hcreate, hrewrite, hlearn⟩, hothers⟩ := hlearn
    exact ih (first.unknown hc hcreate hrewrite hlearn) hothers

/-- A stored entry that says it is in memory was there before the run. -/
theorem inherits (h : Runs region key calls c c') : c.Inherits c' := by
  induction h with
  | nil => exact .refl _
  | cons first rest ih => exact first.inherits.trans ih

/-- If the clock never runs backwards, what is visible in memory is in the store. -/
theorem backed (h : Runs region key calls c c') {start now : Nat} (hc : c.Backed start)
    (ordered : (start :: calls.map Call.now).Pairwise (· ≤ ·))
    (hnow : ∀ call ∈ calls, call.now ≤ now) (hstart : start ≤ now) : c'.Backed now := by
  induction h generalizing start with
  | nil => exact hc.later hstart
  | @cons call calls _ _ _ first rest ih =>
    rw [List.map_cons, List.pairwise_cons] at ordered
    rw [List.forall_mem_cons] at hnow
    exact ih (first.backed (hc.later (ordered.1 _ (.head _)))) ordered.2 hnow.2 hnow.1

end Runs

/-- A run of operations does to each key what its operations do one after another. -/
theorem Backed.performAll_runs {σ : Type} [Store σ] {stands : σ → Table → Prop}
    (reliable : Reliable stands) {e : Engine (Faulty σ)} {t : Table} (h : Backed stands e t)
    (calls : List Call) : ∃ t', Backed stands (e.performAll calls) t' ∧
      ∀ region key, Runs region key calls (e.cell t region key)
        ((e.performAll calls).cell t' region key) := by
  induction calls generalizing e t with
  | nil => exact ⟨t, h, fun _ _ => .nil⟩
  | cons call rest ih =>
    obtain ⟨t₁, _, hmoves⟩ := h.perform reliable call.now call.operation
    obtain ⟨t', h', hruns⟩ := ih hmoves.backed
    exact ⟨t', h', fun region key => .cons (hmoves.path region key) (hruns region key)⟩

theorem Backed.performAll {σ : Type} [Store σ] {stands : σ → Table → Prop}
    (reliable : Reliable stands) {e : Engine (Faulty σ)} {t : Table} (h : Backed stands e t)
    (calls : List Call) : ∃ t', Backed stands (e.performAll calls) t' := by
  obtain ⟨t', h', -⟩ := h.performAll_runs reliable calls
  exact ⟨t', h'⟩

end TierCache
