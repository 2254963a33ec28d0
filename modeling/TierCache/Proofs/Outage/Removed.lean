import Mathlib.Data.List.Permutation
import TierCache.Proofs.Outage.Performing

/-!
Keys that were removed. If the store did the deletes, no reader is shown the key again until somebody
creates it; if it did not, the key is counted and listed no more until it is written or the cache primed.
-/
namespace TierCache
open Std

/-- An operation that takes a key away: a delete that counts it, a moment of expiry that is past, or a
change that leaves nothing of the value found. -/
def Operation.Removes {σ : Type} [Store σ] (e : Engine σ) (now : Nat) (region key : String) :
    {α : Type} → Operation α → Prop
  | _, .delete home names =>
    home = region ∧ key ∈ names ∧ (e.regionD region).known.contains key = true
  | _, .expire home name seconds =>
    home = region ∧ name = key ∧ seconds ≤ 0 ∧ (e.regionD region).known.contains key = true
  | _, .typed home name op => home = region ∧ name = key ∧ ∃ entry result,
    (e.getEntry now region key).1 = some entry ∧ op.plan.onValue entry.value = .ok (result, none)
  | _, _ => False

namespace Engine

/-- Nobody counts or lists the key. -/
structure Unlisted {σ : Type} [Store σ] (e : Engine σ) (region key : String) : Prop where
  counted (now : Nat) (names : List String) :
    (e.exists? now region names).1 = (e.exists? now region (names.filter (· ≠ key))).1
  listed (now : Nat) (pattern : String) : key ∉ (e.keys now region pattern).1
  scanned (now cursor : Nat) (pattern : String) (count : Nat) :
    key ∉ (e.scan now region cursor pattern count).1.keys

/-- No reader is shown the key. -/
structure Unreported {σ : Type} [Store σ] (e : Engine σ) (region key : String) : Prop
    extends e.Unlisted region key where
  entry (now : Nat) : (e.getEntry now region key).1 = none
  text (now : Nat) : (e.get now region key).1 = none
  ttl (now : Nat) : (e.ttl now region key).1 = -2
  type (now : Nat) : (e.typeOf now region key).1 = none
  contents {α β : Type} (now : Nat) (op : Typed α) {c : Contents β} {absent : α} {read : β → α}
    (h : op.plan = .inspect c absent read) : (e.performTyped now region key op).1 = .ok absent

/-! ### Keys that are not known -/

section
variable {σ : Type} [Store σ] {e : Engine σ} {region key : String}

theorem regionD_peek (e : Engine σ) (now : Nat) (home name other : String) :
    (e.peek now home name).2.regionD other = e.regionD other := by
  unfold peek
  split <;> rfl

theorem countLive_unknown (hunknown : (e.regionD region).known.contains key = false) (now : Nat)
    (names : List String) :
    (e.countLive now region names).1 = (e.countLive now region (names.filter (· ≠ key))).1 := by
  induction names generalizing e with
  | nil => rfl
  | cons name rest ih =>
    by_cases hname : name = key
    · subst hname
      rw [countLive, hunknown, if_neg Bool.false_ne_true, ih hunknown]
      simp
    · have hkept : (name :: rest).filter (· ≠ key) = name :: rest.filter (· ≠ key) := by
        simp [hname]
      rw [hkept, countLive, countLive]
      split
      · have hpeek := e.regionD_peek now region name region
        cases hp : e.peek now region name with
        | mk found e₁ =>
          rw [hp] at hpeek
          simp only [ih (e := e₁) (hpeek ▸ hunknown)]
      · exact ih hunknown

theorem mem_filterLive (now : Nat) (names : List String)
    (h : key ∈ (e.filterLive now region names).1) : key ∈ names := by
  induction names generalizing e with
  | nil => exact h
  | cons name rest ih =>
    rw [filterLive] at h
    dsimp only at h
    split at h
    · obtain rfl | h := List.mem_cons.mp h
      · exact .head rest
      · exact .tail name (ih h)
    · exact .tail name (ih h)

theorem not_mem_keys (hunknown : (e.regionD region).known.contains key = false) (now : Nat)
    (pattern : String) : key ∉ (e.keys now region pattern).1 := by
  unfold keys
  split
  · rename_i s hregion
    intro hlisted
    have hin := (List.mem_filter.mp (mem_filterLive now _ hlisted)).1
    rw [ExtTreeSet.mem_toList, ← ExtTreeSet.contains_iff_mem] at hin
    rw [regionD_of_region? hregion, hin] at hunknown
    cases hunknown
  · exact List.not_mem_nil

theorem unlisted (hunknown : (e.regionD region).known.contains key = false) :
    e.Unlisted region key := by
  refine ⟨?_, not_mem_keys hunknown, ?_⟩
  · intro now names
    unfold exists?
    split
    · exact countLive_unknown hunknown now names
    · rfl
  · intro now cursor pattern count hscanned
    exact not_mem_keys hunknown now pattern (List.mem_of_mem_take (List.mem_of_mem_drop hscanned))

/-! ### Emptied containers -/

variable {α β : Type}

/-- A change that leaves nothing of a value is not refused. -/
theorem editEntry_emptied {c : Contents β} {f : β → Except CacheError (Edit α β)} {entry : Entry}
    {a : α} (hdoes : Typed.change c f entry.value = .ok (a, none)) :
    (e.editEntry region key c f entry).1 = .ok a := by
  unfold Typed.change at hdoes
  unfold editEntry
  cases hof : c.of? entry.value with
  | none =>
    rw [hof] at hdoes
    cases hdoes
  | some contents =>
    cases hf : f contents with
    | error err =>
      simp only [hof, hf] at hdoes
      cases hdoes
    | ok edit =>
      simp only [hof, hf, Except.ok.injEq, Prod.mk.injEq] at hdoes ⊢
      obtain ⟨rfl, hleft⟩ := hdoes
      cases hchanged : edit.changed with
      | false =>
        rw [hchanged] at hleft
        cases hleft
      | true =>
        have hempty : (c.wrap edit.after).isEmptyContainer = true := by
          rw [hchanged, if_pos rfl, Typed.left?] at hleft
          split at hleft
          · assumption
          · cases hleft
        simp only [if_true, writeBack, hempty]

theorem run_emptied {now : Nat} {plan : Typed.Plan α} {entry : Entry} {a : α}
    (hfound : (e.getEntry now region key).1 = some entry)
    (hdoes : plan.onValue entry.value = .ok (a, none)) :
    (plan.run e now region key).1 = .ok a := by
  obtain ⟨found, e₁, hget⟩ : ∃ found e₁, e.getEntry now region key = (found, e₁) := ⟨_, _, rfl⟩
  rw [hget] at hfound
  subst hfound
  cases plan with
  | refuse err => cases hdoes
  | upsert c f =>
    rw [Typed.Plan.run, upsert, hget]
    exact editEntry_emptied hdoes
  | update c absent f =>
    rw [Typed.Plan.run, update, hget]
    exact editEntry_emptied hdoes
  | inspect c absent read =>
    rw [Typed.Plan.onValue] at hdoes
    split at hdoes
    · cases hdoes
    · cases hdoes

/-- An operation that takes a key away is not refused. -/
theorem not_refused_of_removes {now : Nat} {op : Operation α} (h : op.Removes e now region key) :
    ¬op.Refused (e.perform now op).1 := by
  cases op with
  | delete => exact id
  | expire home name seconds =>
    obtain ⟨-, -, hpast, -⟩ := h
    rw [perform, expire, if_pos hpast]
    rintro ⟨err, herr⟩
    cases herr
  | typed home name op =>
    obtain ⟨rfl, rfl, entry, result, hfound, hdoes⟩ := h
    rw [perform, op.performTyped_eq]
    rintro ⟨err, herr⟩
    cases (run_emptied hfound hdoes).symm.trans herr
  | _ => exact h.elim

end
end Engine

namespace Backed

variable {σ α : Type} [Store σ] {stands : σ → Table → Prop} (reliable : Reliable stands)
  {e : Engine (Faulty σ)} {t : Table}
include reliable

/-! ### Keys that are in no tier -/

theorem getEntry_absent (h : Backed stands e t) {region key : String}
    (habsent : e.cell t region key = .absent) (now : Nat) :
    (e.getEntry now region key).1 = none := by
  obtain ⟨found, e', hget, hmoves, -, hfinds⟩ := h.getEntry reliable now region key
  have hnocreate : ¬Cell.Kind.create.Quiet := by decide
  rw [hget]
  cases found with
  | none => rfl
  | some entry =>
    have hpath := hmoves.path region key
    rw [habsent] at hpath
    have hseen := hfinds entry rfl
    rw [hpath.absent hnocreate] at hseen
    cases hseen

theorem peek_absent (h : Backed stands e t) {region key : String}
    (habsent : e.cell t region key = .absent) (now : Nat) : (e.peek now region key).1 = none := by
  obtain ⟨found, s, hpeek, -, -, hfinds⟩ := h.peek reliable now region key
  rw [hpeek]
  cases found with
  | none => rfl
  | some entry =>
    have hseen := hfinds entry rfl
    rw [habsent] at hseen
    cases hseen

theorem unreported (h : Backed stands e t) {region key : String}
    (habsent : e.cell t region key = .absent) : e.Unreported region key := by
  have hentry := h.getEntry_absent reliable habsent
  have hpeek := h.peek_absent reliable habsent
  refine ⟨Engine.unlisted (congrArg Cell.known habsent), hentry, ?_, ?_, ?_, ?_⟩
  · intro now
    have hnone := hentry now
    unfold Engine.get
    split
    · rename_i heq
      rw [heq] at hnone
      cases hnone
    · rfl
  · intro now
    rw [Engine.ttl]
    simp only [hpeek now]
  · intro now
    rw [Engine.typeOf]
    simp only [hpeek now, Option.map_none]
  · intro α β now op c absent read hplan
    have hnone := hentry now
    rw [op.performTyped_eq, hplan, Typed.Plan.run, Engine.inspect]
    split
    · rename_i heq
      rw [heq] at hnone
      cases hnone
    · rfl

/-! ### Removed keys -/

/-- A key that an operation takes away is gone. -/
theorem gone (h : Backed stands e t) {now : Nat} {region key : String} {op : Operation α}
    (hremoves : op.Removes e now region key) :
    ∃ t', Backed stands (e.perform now op).2 t' ∧ Gone e (e.perform now op).2 t' region key := by
  have hthere (hknown : (e.regionD region).known.contains key = true) :
      (e.region? region).isSome := by
    cases hregion : e.region? region with
    | none => simp [Engine.regionD_of_none hregion] at hknown
    | some s => rfl
  cases op with
  | delete home names =>
    obtain ⟨rfl, hkey, hknown⟩ := hremoves
    obtain ⟨t', told, hdone, hgones⟩ := h.delete reliable now home names
    exact ⟨t', hdone.moves.backed, hgones (hthere hknown) key hkey⟩
  | expire home name seconds =>
    obtain ⟨rfl, rfl, hpast, hknown⟩ := hremoves
    obtain ⟨t', told, hdone, hgone⟩ := h.deleteKey reliable now home name
    rw [Engine.perform, Engine.expire, if_pos hpast]
    exact ⟨t', hdone.moves.backed, hgone (hthere hknown)⟩
  | typed home name op =>
    obtain ⟨rfl, rfl, entry, result, hfound, hdoes⟩ := hremoves
    have hedits := h.runPlan_found reliable (Prod.ext hfound rfl) op.plan
    rw [Engine.perform, op.performTyped_eq]
    cases hrun : op.plan.run e now home name with
    | mk reply e' =>
      rw [hrun] at hedits
      cases reply with
      | error err =>
        have hreply := Engine.run_emptied hfound hdoes
        rw [hrun] at hreply
        cases hreply
      | ok a =>
        obtain ⟨t', told, left, hleft, hdone, hgone, -⟩ := hedits
        cases hdoes.symm.trans hleft
        exact ⟨t', hdone.moves.backed, hgone trivial rfl⟩
  | _ => exact hremoves.elim

end Backed

namespace Engine

variable {σ α : Type} [Store σ] {stands : σ → Table → Prop}

/-- After any run over a store that fails whenever it likes, an operation that takes a key away is not
refused. If the store did its deletes, no reader is shown the key again in a later run, as long as
nobody creates it. If the store did not, the key is counted and listed no more, as long as nobody writes
it or primes the cache. -/
theorem removed_unreported (reliable : Reliable stands) {store : Faulty σ} {t₀ : Table}
    (h₀ : stands store.inner t₀) (named : t₀.Named) (capacity : Nat) (defaultRegion : String)
    (calls : List Call) (now : Nat) (op : Operation α) (region key : String) (later : List Call) :
    let e := (Engine.fresh store capacity defaultRegion).performAll calls
    let removed := e.perform now op
    let e' := removed.2.performAll later
    op.Removes e now region key →
      ¬op.Refused removed.1 ∧
      (e.store.Answered removed.2.store .delete →
        (∀ call ∈ later, ¬call.operation.does region key .create) → e'.Unreported region key) ∧
      ((∀ call ∈ later, ¬call.operation.does region key .create ∧
        ¬call.operation.does region key .rewrite ∧ ¬call.operation.does region key .learn) →
          e'.Unlisted region key) := by
  intro e removed e' hremoves
  obtain ⟨t, h⟩ := (Backed.fresh h₀ named capacity defaultRegion).performAll reliable calls
  obtain ⟨t₁, h₁, hgone⟩ := h.gone reliable hremoves
  obtain ⟨t', h', hruns⟩ := h₁.performAll_runs reliable later
  refine ⟨not_refused_of_removes hremoves, ?_, ?_⟩
  · intro answered hcreate
    exact h'.unreported reliable ((hruns region key).absent (hgone.absent answered) hcreate)
  · intro hwrites
    exact unlisted ((hruns region key).unknown hgone.unknown hwrites)

/-- A deleted key is read in vain, though the store lets nobody set an expiry. -/
theorem removed_unreported_deleted :
    let store : Faulty Table := ⟨.empty, fun _ call => call = .updateExpiry, 0⟩
    store.inner = Table.empty ∧ Table.empty.Named ∧
    ((((Engine.fresh store 1 "main").performAll
      [⟨5, _, .setValue "main" "k" (.string "v") none⟩]).perform 6 (.delete "main" ["k"])).2.performAll
        [⟨7, _, .read "main" "k"⟩]).Unreported "main" "k" := by
  intro store
  have hempty : store.inner = Table.empty := rfl
  have named : Table.empty.Named := Table.named_empty
  refine ⟨rfl, named, ?_⟩
  have hquiet : ¬(Operation.read "main" "k").does "main" "k" .create := by
    rintro (hdrop | hpromote)
    · cases hdrop
    · cases hpromote
  obtain ⟨-, hunreported, -⟩ := removed_unreported Table.reliable hempty named 1 "main"
    [⟨5, _, .setValue "main" "k" (.string "v") none⟩] 6 (.delete "main" ["k"]) "main" "k"
    [⟨7, _, .read "main" "k"⟩] ⟨rfl, .head _, by decide +kernel⟩
  exact hunreported (fun n _ _ => by cbv) (List.forall_mem_singleton.mpr hquiet)

/-- A key that the store does not delete is counted as deleted and read again. -/
theorem deleted_shown :
    let e := (Engine.fresh (Faulty.mk Table.empty (fun _ call => call = .delete) 0) 1 "main").performAll
      [⟨5, _, .setValue "main" "k" (.string "v") none⟩]
    (e.delete "main" ["k"]).1 = 1 ∧ ((e.delete "main" ["k"]).2.exists? 6 "main" ["k"]).1 = 0 ∧
      ((e.delete "main" ["k"]).2.get 6 "main" "k").1 = some "v" := by
  decide +kernel

end Engine
end TierCache
