import TierCache.Proofs.Outage.Performing
import TierCache.Proofs.Recency.Placing

/-!
Which entry has to make room. Over a run of operations the touches add up to a history: what reads
served from memory or put there, what priming put there, and what was written. A write that finds no
slot moves out the entry whose last touch came first in it, and nothing else moves entries out.
-/
namespace TierCache
open Std

/-- An operation that writes its key, if there is something to write. -/
def Operation.Writes : {α : Type} → Operation α → Prop
  | _, .setValue .. => True
  | _, .typed _ _ op => ¬op.plan.Reads
  | _, _ => False

namespace Engine

variable {σ α β : Type}

section
variable [Store σ] (e : Engine σ) (now : Nat)

/-- An operation on contents looks for its key, unless it is refused at once. -/
def touchedByPlan {α : Type} (id : RowId) : Typed.Plan α → List RowId
  | .refuse _ => []
  | .upsert .. | .update .. | .inspect .. => e.touchedByReading now id

/-- What an operation found and has in memory afterwards. -/
def served : {α : Type} → Operation α → List RowId
  | _, .read region key => e.touchedByReading now ⟨region, key⟩
  | _, .get region key => e.touchedByReading now ⟨region, key⟩
  | _, .prime => e.touchedByPriming now
  | _, .typed region key op => e.touchedByPlan now ⟨region, key⟩ op.plan
  | _, _ => []

/-- What an operation wrote: a value that was set, or contents that were changed and told as set. -/
def written : {α : Type} → Operation α → List RowId
  | _, .setValue region key value expiresAt =>
    match (e.setValue now region key value expiresAt).1 with
    | .ok _ => [⟨region, key⟩]
    | .error _ => []
  | _, .typed region key op =>
    if .change region key .set ∈
        (e.performTyped now region key op).2.signals.drop e.signals.length then [⟨region, key⟩]
    else []
  | _, _ => []

/-- All touches of a run of operations, the earliest first. -/
def touches (e : Engine σ) : List Call → List RowId
  | [] => []
  | call :: rest =>
    e.served call.now call.operation ++ e.written call.now call.operation ++
      touches (e.perform call.now call.operation).2 rest

end

variable {e e₁ e' : Engine σ} {touched later : List RowId} {id : RowId}

/-- No entry made room, and what left memory is not known any more. -/
structure Spares (touched : List RowId) (e e' : Engine σ) : Prop extends Follows touched e e' where
  evictions : e'.stats.evictions = e.stats.evictions
  leaves (id : RowId) (h : e.inMemory id = true) : e'.inMemory id = true ∨ e'.knows id = false

theorem Fades.spares (h : e.Fades e') : e.Spares [] e' where
  recalls recalls := by
    rw [List.append_nil]
    exact h.recalls recalls
  came id hin := .inl (h.stays id hin)
  evictions := h.evictions
  leaves id hin := by
    cases hout : e'.inMemory id with
    | true => exact .inl rfl
    | false => exact .inr (h.gone id hin hout)

theorem Still.spares (h : e.Still e') : e.Spares [] e' := h.fades.spares

theorem Gathers.spares_then (h : e.Gathers touched e₁) (h' : e₁.Spares later e') :
    e.Spares (touched ++ later) e' :=
  ⟨h.follows h'.toFollows, h'.evictions.trans h.evictions, fun id hin => h'.leaves id (h.stays id hin)⟩

theorem Gathers.spares (h : e.Gathers touched e') : e.Spares touched e' := by
  simpa using h.spares_then (Still.refl e').spares

theorem Spares.then_still (h : e.Spares touched e₁) (still : e₁.Still e') : e.Spares touched e' := by
  refine ⟨⟨fun recalls => still.recalls (h.recalls recalls), ?_⟩, still.evictions.trans h.evictions, ?_⟩
  all_goals simp only [still.inMemory, still.knows]
  · exact h.came
  · exact h.leaves

/-- An operation on one key ends, having told what it wrote, if anything. -/
def Ends (touched : List RowId) (id : RowId) (e : Engine σ) :
    Except CacheError α × Engine σ → Prop
  | (reply, e') => ∃ told, e'.signals = e.signals ++ told ∧
    (.change id.region id.key .set ∈ told ∧ e.Places (touched ++ [id]) id e' ∨
      .change id.region id.key .set ∉ told ∧
        (e.Spares touched e' ∨ (∃ err, reply = .error err) ∧ e.Follows touched e'))

namespace Ends

variable {outcome : Except CacheError α × Engine σ}

theorem silent (h : e.Spares touched e') (hsignals : e'.signals = e.signals)
    (reply : Except CacheError α) : e.Ends touched id (reply, e') :=
  ⟨[], by rw [hsignals, List.append_nil], .inr ⟨List.not_mem_nil, .inl h⟩⟩

/-- Only whether it was refused matters of the reply. -/
theorem of_reply {reply : Except CacheError α} {reply' : Except CacheError β}
    (h : e.Ends touched id (reply, e'))
    (herr : (∃ err, reply = .error err) → ∃ err, reply' = .error err) :
    e.Ends touched id (reply', e') := by
  obtain ⟨told, htold, hend⟩ := h
  exact ⟨told, htold, hend.imp_right (And.imp_right (Or.imp_right (And.imp_left herr)))⟩

/-- A key that a read served from memory, or that it left as it was, is changed. -/
theorem after (h : e₁.Ends [] id outcome) (hsignals : e₁.signals = e.signals)
    (hread : touched = [id] ∧ e.Gathers [id] e₁ ∧ e₁.inMemory id = true ∨
      touched = [] ∧ e.Still e₁) : e.Ends touched id outcome := by
  obtain ⟨told, htold, hend⟩ := h
  refine ⟨told, by rw [htold, hsignals], ?_⟩
  obtain ⟨rfl, hgathers, hserved⟩ | ⟨rfl, hstill⟩ := hread
  · refine hend.imp ?_ (And.imp_right (Or.imp ?_ (And.imp_right ?_)))
    · exact fun ⟨hmem, hplaces⟩ => ⟨hmem, hplaces.gathered hgathers hserved⟩
    · exact hgathers.spares_then
    · exact hgathers.follows
  · refine hend.imp ?_ (And.imp_right (Or.imp ?_ (And.imp_right ?_)))
    · exact fun ⟨hmem, hplaces⟩ => ⟨hmem, hplaces.still hstill⟩
    · exact hstill.gathers.spares_then
    · exact hstill.follows

end Ends

variable [Store σ]

theorem delete_ends (e : Engine σ) (region key : String) (reply : Except CacheError α) :
    e.Ends [] ⟨region, key⟩ (reply, (e.delete region [key]).2) := by
  have hspares := (e.delete_fades region [key]).spares
  suffices ∃ told, (e.delete region [key]).2.signals = e.signals ++ told ∧
      .change region key .set ∉ told by
    obtain ⟨told, htold, hquiet⟩ := this
    exact ⟨told, htold, .inr ⟨hquiet, .inl hspares⟩⟩
  have hsignals := e.signals_removeKey region key
  unfold delete
  split
  · unfold removeKeys
    split
    · rename_i heq
      rw [heq] at hsignals
      refine ⟨_, (signals_announce ..).trans (congrArg (· ++ _) hsignals), ?_⟩
      simp
    · rename_i heq
      rw [heq] at hsignals
      exact ⟨[], by rw [List.append_nil]; exact hsignals, List.not_mem_nil⟩
  · exact ⟨[], (List.append_nil _).symm, List.not_mem_nil⟩

end Engine

namespace Backed
open Engine

variable {σ α β : Type} [Store σ] {stands : σ → Table → Prop} (reliable : Reliable stands)
  {e : Engine (Faulty σ)} {t : Table} {c : Setup} (h : Backed stands e t) (sound : e.Sound c 0)
  (positive : 0 < c.capacity) (now : Nat) (region key : String)
include reliable h sound positive

theorem put_ends {entry : Entry} (hname : entry.region = region ∧ entry.key = key) :
    e.Ends [] ⟨region, key⟩ (e.put entry) := by
  obtain ⟨rfl, rfl⟩ := hname
  have hlands := sound.put_lands positive entry
  obtain ⟨reply, e', hput, ⟨createdAt, place, rfl, hwrote⟩ | ⟨⟨err, rfl⟩, -, hmoves⟩⟩ :=
    h.put reliable 0 entry
  · rw [hput] at hlands ⊢
    exact ⟨_, hwrote.signals, .inl ⟨by simp, hlands⟩⟩
  · rw [hput] at hlands ⊢
    exact ⟨[], hmoves.signals, .inr ⟨List.not_mem_nil, .inr ⟨⟨err, rfl⟩, hlands⟩⟩⟩

theorem writeBack_ends (entry : Entry) (hname : entry.region = region ∧ entry.key = key) :
    e.Ends [] ⟨region, key⟩ (e.writeBack region key entry) := by
  unfold Engine.writeBack
  split
  · exact e.delete_ends region key _
  · exact h.put_ends reliable sound positive region key hname

theorem editEntry_ends {entry : Entry} (hname : entry.region = region ∧ entry.key = key)
    (contents : Contents β) (change : β → Except CacheError (Edit α β)) :
    e.Ends [] ⟨region, key⟩ (e.editEntry region key contents change entry) := by
  have hsame (reply : Except CacheError α) : e.Ends [] ⟨region, key⟩ (reply, e) :=
    .silent (Still.refl e).spares rfl reply
  unfold Engine.editEntry
  split
  · exact hsame _
  split
  · exact hsame _
  · rename_i edit _
    split
    · have hwrite := h.writeBack_ends reliable sound positive region key
        { entry with value := contents.wrap edit.after } hname
      split
      · rename_i err e₁ heq
        rw [heq] at hwrite
        exact hwrite.of_reply fun _ => ⟨err, rfl⟩
      · rename_i e₁ heq
        rw [heq] at hwrite
        exact hwrite.of_reply nofun
    · exact hsame _

/-- An operation that changes contents touches its key if it serves it from memory, and again if it
writes it. -/
theorem runPlan_ends {plan : Typed.Plan α} (hwrites : ¬plan.Reads) :
    e.Ends (e.touchedByPlan now ⟨region, key⟩ plan) ⟨region, key⟩
      (plan.run e now region key) := by
  have hread := h.getEntry_touches reliable now region key
  obtain ⟨found, e₁, hget, hmoves, hshown, -⟩ := h.getEntry reliable now region key
  have hsignals : e₁.signals = e.signals := by rw [hmoves.signals, List.append_nil]
  obtain ⟨hsound, -⟩ := KeepsBooks.getEntry now region key e c sound 0
  beta_reduce at hsound
  rw [hget] at hread hsound
  have hedits {β : Type} (entry : Entry) (hname : entry.region = region ∧ entry.key = key)
      (contents : Contents β) (change : β → Except CacheError (Edit α β)) :=
    (hmoves.backed.editEntry_ends reliable hsound positive region key hname contents change).after
      hsignals hread
  have hfound (entry : Entry) (heq : found = some entry) : entry.region = region ∧ entry.key = key :=
    ⟨(hshown.live heq).2.ofRegion, (hshown.live heq).2.ofKey⟩
  cases plan with
  | refuse err => exact .silent (Still.refl e).spares rfl _
  | upsert contents change =>
    simp only [Typed.Plan.run, Engine.upsert, hget]
    cases found with
    | none => exact hedits _ ⟨rfl, rfl⟩ contents change
    | some entry => exact hedits entry (hfound entry rfl) contents change
  | update contents absent change =>
    simp only [Typed.Plan.run, Engine.update, hget]
    cases found with
    | none => exact (Ends.silent (Still.refl e₁).spares rfl _).after hsignals hread
    | some entry => exact hedits entry (hfound entry rfl) contents _
  | inspect => exact absurd trivial hwrites

end Backed

namespace Engine

/-- What an operation did to memory: it wrote a key, or no entry made room, or it could not write. -/
def Turns {σ α : Type} [Store σ] (e : Engine σ) (now : Nat) (op : Operation α) : Prop :=
  (∃ id, e.written now op = [id] ∧ e.Places (e.served now op ++ [id]) id (e.perform now op).2) ∨
  e.written now op = [] ∧ (e.Spares (e.served now op) (e.perform now op).2 ∨
    (op.Writes ∧ op.Refused (e.perform now op).1) ∧
      e.Follows (e.served now op) (e.perform now op).2)

theorem get_still {σ : Type} [Store σ] (e : Engine σ) (now : Nat) (region key : String) :
    (e.getEntry now region key).2.Still (e.get now region key).2 := by
  unfold get
  generalize e.getEntry now region key = outcome
  split <;> exact ⟨fun _ => rfl, rfl, rfl, rfl, rfl⟩

/-- After an operation on contents that reads, the engine is as after a read. -/
theorem run_reads {σ α : Type} [Store σ] (e : Engine σ) (now : Nat) (region key : String)
    {plan : Typed.Plan α} (hreads : plan.Reads) :
    (plan.run e now region key).2 = (e.getEntry now region key).2 := by
  cases plan with
  | inspect contents absent read =>
    simp only [Typed.Plan.run, inspect]
    cases e.getEntry now region key with
    | mk found e₁ =>
      cases found with
      | none => rfl
      | some entry =>
        dsimp only
        split <;> rfl
  | refuse | upsert | update => exact hreads.elim

end Engine

namespace Backed
open Engine

variable {σ α : Type} [Store σ] {stands : σ → Table → Prop} (reliable : Reliable stands)
  {e : Engine (Faulty σ)} {t : Table} {c : Setup} (h : Backed stands e t) (sound : e.Sound c 0)
  (positive : 0 < c.capacity) (now : Nat)
include reliable h

theorem getEntry_spares (region key : String) :
    e.Spares (e.touchedByReading now ⟨region, key⟩) (e.getEntry now region key).2 := by
  obtain ⟨htouched, hgathers, -⟩ | ⟨htouched, hstill⟩ := h.getEntry_touches reliable now region key
  · rw [htouched]
    exact hgathers.spares
  · rw [htouched]
    exact hstill.spares

include sound positive

theorem typed_turns (region key : String) (op : Typed α) :
    e.Turns now (.typed region key op) := by
  have hrun := op.performTyped_eq e now region key
  unfold Turns
  simp only [written, served, Engine.perform, hrun]
  by_cases hreads : op.plan.Reads
  · right
    obtain ⟨found, e₁, hget, hmoves, -, -⟩ := h.getEntry reliable now region key
    have hspares := h.getEntry_spares reliable now region key
    rw [e.run_reads now region key hreads]
    -- what only reads tells of nothing
    refine ⟨if_neg ?_, .inl ?_⟩
    · rw [hget, hmoves.signals, List.append_nil, List.drop_length]
      exact List.not_mem_nil
    · cases hplan : op.plan with
      | inspect => exact hspares
      | refuse | upsert | update => rw [hplan] at hreads; exact hreads.elim
  · have hends := h.runPlan_ends reliable sound positive now region key hreads
    cases hout : op.plan.run e now region key with
    | mk reply e' =>
      rw [hout] at hends
      obtain ⟨told, htold, hend⟩ := hends
      rw [htold, List.drop_left]
      obtain ⟨hset, hplaces⟩ | ⟨hset, hend⟩ := hend
      · exact .inl ⟨_, if_pos hset, hplaces⟩
      · exact .inr ⟨if_neg hset, hend.imp_right (And.imp_left (⟨hreads, ·⟩))⟩

theorem perform_turns (op : Operation α) : e.Turns now op := by
  have hspares : e.Spares (e.served now op) (e.perform now op).2 → e.written now op = [] →
      e.Turns now op :=
    fun hspares hwritten => .inr ⟨hwritten, .inl hspares⟩
  cases op with
  | setValue region key value expiresAt =>
    have hlands : e.Lands ⟨region, key⟩ (e.setValue now region key value expiresAt) :=
      sound.put_lands positive (.create now region key value expiresAt)
    unfold Turns
    simp only [written, served, Engine.perform]
    cases hset : e.setValue now region key value expiresAt with
    | mk reply e' =>
      rw [hset] at hlands
      cases reply with
      | ok => exact .inl ⟨_, rfl, hlands⟩
      | error err => exact .inr ⟨rfl, .inr ⟨⟨trivial, err, rfl⟩, hlands⟩⟩
  | read region key => exact hspares (h.getEntry_spares reliable now region key) rfl
  | get region key =>
    exact hspares ((h.getEntry_spares reliable now region key).then_still
      (e.get_still now region key)) rfl
  | countLive region keys => exact hspares (e.exists?_still now region keys).spares rfl
  | ttl region key => exact hspares (e.peek_still now region key).spares rfl
  | typeOf region key => exact hspares (e.peek_still now region key).spares rfl
  | keys region pattern => exact hspares (e.keys_still now region pattern).spares rfl
  | scan region cursor pattern count => exact hspares (e.keys_still now region pattern).spares rfl
  | expire region key seconds => exact hspares (e.expire_fades now region key seconds).spares rfl
  | persist region key => exact hspares (e.persist_fades now region key).spares rfl
  | delete region keys => exact hspares (e.delete_fades region keys).spares rfl
  | deleteRegion region => exact hspares (e.deleteRegion_fades region).spares rfl
  | sweep => exact hspares (e.sweep_fades now).spares rfl
  | prime => exact hspares (e.prime_gathers now).spares rfl
  | regionNames => exact hspares (Still.withStore e _).spares rfl
  | regionCounts region => exact hspares (Still.withStore e _).spares rfl
  | knownCount => exact hspares (Still.refl e).spares rfl
  | lookups => exact hspares (Still.refl e).spares rfl
  | typed region key op => exact h.typed_turns reliable sound positive now region key op

end Backed

namespace Engine

variable {σ α : Type} [Store σ] {stands : σ → Table → Prop}

theorem Turns.recalls {e : Engine σ} {now : Nat} {op : Operation α} (h : e.Turns now op)
    {history : List RowId} (recalls : e.Recalls history) : (e.perform now op).2.Recalls
      (history ++ (e.served now op ++ e.written now op)) := by
  obtain ⟨id, hwritten, hplaces⟩ | ⟨hwritten, hspares | ⟨-, hfollows⟩⟩ := h
  · rw [hwritten]
    exact hplaces.recalls recalls
  · rw [hwritten, List.append_nil]
    exact hspares.recalls recalls
  · rw [hwritten, List.append_nil]
    exact hfollows.recalls recalls

/-- Over a run of operations the stamps tell the order of all its touches. -/
theorem Recalls.performAll (reliable : Reliable stands) {e : Engine (Faulty σ)} {t : Table} {c : Setup}
    (h : Backed stands e t) (sound : e.Sound c 0) (positive : 0 < c.capacity) {history : List RowId}
    (recalls : e.Recalls history) (calls : List Call) :
    (e.performAll calls).Recalls (history ++ e.touches calls) := by
  induction calls generalizing e t history with
  | nil =>
    rw [touches, List.append_nil]
    exact recalls
  | cons call rest ih =>
    obtain ⟨t', told, hmoves⟩ := h.perform reliable call.now call.operation
    have hsound := (KeepsBooks.perform call.now call.operation e c sound 0).1
    have hturns := h.perform_turns reliable sound positive call.now call.operation
    rw [touches, ← List.append_assoc]
    exact ih hmoves.backed hsound (hturns.recalls recalls)

/-- After any run, over a store that fails whenever it likes: a write leaves its key in memory. No other
entry leaves memory for it if the key was there or a slot was free; otherwise exactly one does, of
whatever region, which stays known, and whose last touch in the run came before those of all others in
memory. An operation that wrote nothing, unless it was a write that failed, moves out only what it makes
unknown. What came into memory without being written was served or primed while a slot was free. -/
theorem evicts_oldest (reliable : Reliable stands) {store : Faulty σ} {t : Table}
    (stored : stands store.inner t) (named : t.Named) {capacity : Nat} (positive : 0 < capacity)
    (defaultRegion : String) (calls : List Call) (now : Nat) (op : Operation α) :
    let start := Engine.fresh store capacity defaultRegion
    let e := start.performAll calls
    let outcome := e.perform now op
    let e' := outcome.2
    (∀ id ∈ e.written now op, e'.inMemory id = true ∧
      (e.inMemory id = true ∨ e.residents < capacity →
        e'.stats.evictions = e.stats.evictions ∧
          ∀ other, e.inMemory other = true → e'.inMemory other = true) ∧
      (e.inMemory id = false → e.residents = capacity →
        e'.stats.evictions = e.stats.evictions + 1 ∧ ∃ victim, e.inMemory victim = true ∧
          e'.inMemory victim = false ∧ e'.knows victim = e.knows victim ∧
          ∀ other, other ≠ victim → e.inMemory other = true →
            e'.inMemory other = true ∧ Sooner (start.touches calls) victim other)) ∧
    (e.written now op = [] → (op.Writes → ¬op.Refused outcome.1) →
      e'.stats.evictions = e.stats.evictions ∧
        ∀ id, e.inMemory id = true → e'.inMemory id = true ∨ e'.knows id = false) ∧
    ∀ id, e'.inMemory id = true → e.inMemory id = true ∨ id ∈ e.written now op ∨
      id ∈ e.served now op ∧ e.residents < capacity := by
  intro start e outcome e'
  have hstart : Backed stands start t := Backed.fresh stored named capacity defaultRegion
  have hsoundStart : start.Sound ⟨capacity, defaultRegion⟩ 0 := Sound.fresh store capacity defaultRegion
  obtain ⟨t', h⟩ := hstart.performAll reliable calls
  have sound : e.Sound ⟨capacity, defaultRegion⟩ 0 := hsoundStart.performAll calls
  have recalls : e.Recalls (start.touches calls) :=
    Recalls.performAll reliable hstart hsoundStart positive (Recalls.fresh ..) calls
  have hresident : e.resident = e.residents := sound.resident
  have hcapacity : e.capacity = capacity := sound.capacity
  obtain ⟨id, hwritten, hplaces⟩ | ⟨hwritten, hend⟩ := h.perform_turns reliable sound positive now op
  · rw [hwritten]
    refine ⟨?_, nofun, fun other hin => ?_⟩
    · intro written hmem
      obtain rfl := List.mem_singleton.mp hmem
      rw [← hresident, ← hcapacity]
      exact ⟨hplaces.placed, hplaces.stays, hplaces.makes_room sound.toOrdered recalls⟩
    · exact (hplaces.came other hin).imp_right fun heq => .inl (List.mem_singleton.mpr heq)
  · have hfollows : e.Follows (e.served now op) e' := hend.elim Spares.toFollows And.right
    rw [hwritten]
    refine ⟨nofun, fun _ haccepted => ?_, fun other hin => ?_⟩
    · obtain hspares | ⟨⟨hwrites, hrefused⟩, -⟩ := hend
      · exact ⟨hspares.evictions, hspares.leaves⟩
      · exact absurd hrefused (haccepted hwrites)
    · rw [← hresident, ← hcapacity]
      exact (hfollows.came other hin).imp_right .inr

/-- Keys of two regions are written, and the one that was written first is read again. -/
def readAgain : List Call :=
  [⟨5, _, .setValue "main" "a" (.string "v") none⟩,
    ⟨6, _, .setValue "orders" "b" (.string "w") none⟩, ⟨7, _, .get "main" "a"⟩]

/-- A write to a memory of two slots moves out the key that was not read again, which is of another
region. -/
theorem evicts_oldest_second :
    let store : Faulty Table := ⟨.empty, fun _ _ => false, 0⟩
    let e := (Engine.fresh store 2 "main").performAll readAgain
    let e' := (e.perform 8 (.setValue "main" "c" (.string "x") none)).2
    store.inner = Table.empty ∧ Table.empty.Named ∧ 0 < 2 ∧
      e.inMemory ⟨"main", "c"⟩ = false ∧ e.residents = 2 ∧
      e'.inMemory ⟨"main", "c"⟩ = true ∧ e'.inMemory ⟨"main", "a"⟩ = true ∧
      e'.inMemory ⟨"orders", "b"⟩ = false ∧ e'.knows ⟨"orders", "b"⟩ = true := by
  intro store e e'
  have stored : store.inner = Table.empty := rfl
  have named : Table.empty.Named := Table.named_empty
  have hnew : e.inMemory ⟨"main", "c"⟩ = false := by decide +kernel
  have hfull : e.residents = 2 := by decide +kernel
  have hknew : e.knows ⟨"orders", "b"⟩ = true := by decide +kernel
  have hread : e.inMemory ⟨"main", "a"⟩ = true := by decide +kernel
  have hwaits : e.inMemory ⟨"orders", "b"⟩ = true := by decide +kernel
  have htouches : (Engine.fresh store 2 "main").touches readAgain =
      [⟨"main", "a"⟩, ⟨"orders", "b"⟩, ⟨"main", "a"⟩] := by decide +kernel
  have hwritten : ⟨"main", "c"⟩ ∈ e.written 8 (.setValue "main" "c" (.string "x") none) := by
    obtain ⟨t, h⟩ := (Backed.fresh stored named 2 "main").performAll Table.reliable readAgain
    obtain ⟨reply, e', hset, ⟨createdAt, place, rfl, -⟩ | ⟨-, hfailed, -⟩⟩ :=
      h.put Table.reliable 8 (.create 8 "main" "c" (.string "x") none)
    · have hdone : e.setValue 8 "main" "c" (.string "x") none = (.ok (), e') := hset
      rw [written, hdone]
      exact List.mem_singleton_self _
    · exact absurd (fun _ _ _ => rfl) hfailed
  obtain ⟨hwrites, -, -⟩ := evicts_oldest Table.reliable stored named Nat.two_pos "main" readAgain 8
    (.setValue "main" "c" (.string "x") none)
  obtain ⟨hplaced, -, hmoves⟩ := hwrites _ hwritten
  obtain ⟨-, victim, -, hout, hknown, hothers⟩ := hmoves hnew hfull
  rw [htouches] at hothers
  have hvictim : victim = ⟨"orders", "b"⟩ := by
    by_contra hne
    have hsooner := (hothers ⟨"orders", "b"⟩ (Ne.symm hne) hwaits).2
    have ha : victim = ⟨"main", "a"⟩ := by simpa [hne] using hsooner.mem
    rw [ha] at hsooner
    exact absurd hsooner (by decide)
  subst hvictim
  have hstays := (hothers ⟨"main", "a"⟩ (by decide) hread).1
  exact ⟨stored, named, Nat.two_pos, hnew, hfull, hplaced, hstays, hout, hknown.trans hknew⟩

end Engine
end TierCache
