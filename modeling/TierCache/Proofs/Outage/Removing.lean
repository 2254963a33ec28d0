import TierCache.Engine.Regions
import TierCache.Proofs.Outage.Writing

/-!
Removing while the store may fail. A key goes from memory in any case; its row stays if the store does
not remove it.
-/
namespace TierCache
open Std

namespace Engine

variable {σ : Type} [Store σ] (e : Engine σ) (region key : String)

theorem store_removeKey : (e.removeKey region key).2.store = (Store.delete region key e.store).2 := by
  unfold removeKey
  dsimp only
  split <;> rfl

theorem regionD_removeKey (other : String) : (e.removeKey region key).2.regionD other =
    if region = other then ⟨(e.regionD region).known.erase key, (e.regionD region).memory.erase key,
      (e.regionD region).lru.remove key⟩ else e.regionD other := by
  rw [← regionD_setRegion]
  unfold removeKey
  dsimp only
  split <;> rfl

theorem known_removeKey (other name : String) :
    ((e.removeKey region key).2.regionD other).known.contains name = true ↔
      ¬(region = other ∧ key = name) ∧ (e.regionD other).known.contains name = true := by
  rw [regionD_removeKey]
  by_cases hregion : region = other
  · subst hregion
    simp [ExtTreeSet.contains_erase]
  · simp [hregion]

theorem memory_removeKey (other name : String) :
    ((e.removeKey region key).2.regionD other).memory[name]? =
      if region = other ∧ key = name then none else (e.regionD other).memory[name]? := by
  rw [regionD_removeKey]
  by_cases hregion : region = other
  · subst hregion
    simp [Tree.get_erase]
  · simp [hregion]

theorem cell_removeKey (t : Table) (other name : String) :
    (e.removeKey region key).2.cell t other name =
      if region = other ∧ key = name then ⟨false, none, t.get? other name⟩
      else e.cell t other name := by
  have hknown := e.known_removeKey region key other name
  rw [cell, memory_removeKey]
  split
  · rename_i hname
    have hout : ((e.removeKey region key).2.regionD other).known.contains name = false := by
      rw [← Bool.not_eq_true, hknown]
      exact fun hin => hin.1 hname
    rw [hout]
    rfl
  · rename_i hname
    rw [and_iff_right hname, ← Bool.eq_iff_iff] at hknown
    rw [hknown]
    rfl

theorem signals_removeKey : (e.removeKey region key).2.signals = e.signals := by
  unfold removeKey
  dsimp only
  split <;> rfl

omit [Store σ] in
/-- A region that is cleared if it is there is empty afterwards. -/
theorem clearIfThere : ∃ e', (if (e.region? region).isSome then e.clearRegion region else e) = e' ∧
    e'.store = e.store ∧ e'.signals = e.signals ∧
    ∀ other, e'.regionD other = if region = other then .empty else e.regionD other := by
  split
  · exact ⟨_, rfl, rfl, rfl, fun other => e.regionD_setRegion region other .empty⟩
  · rename_i hnone
    refine ⟨e, rfl, rfl, rfl, fun other => ?_⟩
    split
    · rename_i hother
      exact regionD_of_none (hother ▸ Option.not_isSome_iff_eq_none.mp hnone)
    · rfl

omit [Store σ] in
/-- An empty region without rows has no keys. -/
theorem cell_cleared {e e' : Engine σ} {region : String}
    (h : ∀ other, e'.regionD other = if region = other then .empty else e.regionD other) (t : Table)
    (other name : String) : e'.cell (t.eraseRegion region) other name =
      if region = other then .absent else e.cell t other name := by
  rw [cell, h, t.get?_eraseRegion]
  split
  · rename_i hother
    rw [if_pos hother.symm]
    simp [Cell.absent]
  · rename_i hother
    rw [if_neg (Ne.symm hother)]
    rfl

end Engine

namespace Backed

variable {σ : Type} {stands : σ → Table → Prop} {e : Engine (Faulty σ)} {t : Table}

/-- Less is known, in memory and stored, and nothing is known without its row. -/
theorem of_fewer (h : Backed stands e t) {e' : Engine (Faulty σ)} {t' : Table}
    (stored : stands e'.store.inner t') (named : t'.Named)
    (rows : ∀ region key row, t'.get? region key = some row → t.get? region key = some row)
    (known : ∀ region key, (e'.regionD region).known.contains key = true →
      (e.regionD region).known.contains key = true ∧ t'.get? region key = t.get? region key)
    (memory : ∀ (region key : String) (entry : Entry),
      (e'.regionD region).memory[key]? = some entry →
        (e.regionD region).memory[key]? = some entry) : Backed stands e' t' := by
  refine ⟨stored, named, ?_, ?_⟩
  · intro region key hknown
    obtain ⟨hold, hrow⟩ := known region key hknown
    rw [hrow]
    exact h.known hold
  · intro region key entry hm
    exact (h.copied (memory region key entry hm)).of_subset (rows region key)

/-- The rows of a region go, and with them all that is known of it and in memory. -/
theorem clearRegion (h : Backed stands e t) (now : Nat) {region : String} {s : Faulty σ}
    (hs : stands s.inner (t.eraseRegion region)) (later : e.store.Later s) :
    ∃ e', (if (({ e with store := s } : Engine (Faulty σ)).region? region).isSome then
        { e with store := s }.clearRegion region else { e with store := s }) = e' ∧
      Moves stands now (.onto (fun other _ => region = other) [.forget]) [] e t e'
        (t.eraseRegion region) ∧
      ∀ key, e'.cell (t.eraseRegion region) region key = .absent := by
  obtain ⟨e', heq, hstore, hsignals, hcleared⟩ :=
    ({ e with store := s } : Engine (Faulty σ)).clearIfThere region
  have hcell : ∀ other name, e'.cell (t.eraseRegion region) other name =
      if region = other then .absent else e.cell t other name := Engine.cell_cleared hcleared t
  refine ⟨e', heq, ⟨?_, hstore ▸ later, by rw [hsignals, List.append_nil], ?_⟩, ?_⟩
  · apply h.of_fewer (hstore ▸ hs) (t.named_eraseRegion h.named region)
    · intro other name row hrow
      rw [t.get?_eraseRegion] at hrow
      split at hrow
      · cases hrow
      · exact hrow
    · intro other name hknown
      rw [hcleared] at hknown
      split at hknown
      · simp at hknown
      · rename_i hne
        exact ⟨hknown, by rw [t.get?_eraseRegion, if_neg (Ne.symm hne)]⟩
    · intro other name entry hm
      rw [hcleared] at hm
      split at hm
      · simp at hm
      · exact hm
  · intro other name
    rw [hcell]
    split
    · rename_i hother
      exact .one (.inr ⟨hother, .head _⟩) (.forget (.inl rfl))
    · exact .refl _
  · intro key
    rw [hcell, if_pos rfl]

section
variable [Store σ] (reliable : Reliable stands)
include reliable

/-- A key is removed, and its row with it unless the store fails. -/
theorem removeKey (h : Backed stands e t) (now : Nat) (region key : String) :
    ∃ t', Moves stands now (.only region key [.forget]) [] e t (e.removeKey region key).2 t' ∧
      Gone e (e.removeKey region key).2 t' region key ∧
      (∀ other name row, t'.get? other name = some row → t.get? other name = some row) ∧
      ∀ other name, ¬(region = other ∧ key = name) → t'.get? other name = t.get? other name := by
  have hstore := e.store_removeKey region key
  have hcell := e.cell_removeKey region key
  obtain ⟨s, later, hend⟩ := Faulty.delete reliable h.stored region key
  have hdeleted : (Store.delete region key e.store).2 = s := by
    obtain ⟨heq, -⟩ | ⟨⟨err, heq⟩, -⟩ := hend
    · rw [heq]
    · rw [heq]
  rw [hdeleted] at hstore
  -- the row goes, or stays if the store fails
  obtain ⟨t', hs, named, hrow, hlost, hothers⟩ : ∃ t', stands s.inner t' ∧ t'.Named ∧
      (t'.get? region key = none ∨ t'.get? region key = t.get? region key) ∧
      (e.store.Answered s .delete → t'.get? region key = none) ∧
      ∀ other name, ¬(region = other ∧ key = name) → t'.get? other name = t.get? other name := by
    obtain ⟨-, hs⟩ | ⟨-, hs, hlost⟩ := hend
    · have hgone : (t.erase region key).get? region key = none := by rw [t.get?_erase, if_pos rfl]
      refine ⟨_, hs, t.named_erase h.named region key, .inl hgone, fun _ => hgone, ?_⟩
      intro other name hne
      rw [t.get?_erase, if_neg fun heq => hne (RowId.mk.inj heq)]
    · exact ⟨t, hs, h.named, .inr rfl, fun answered => absurd answered hlost, fun _ _ _ => rfl⟩
  have hrows (other name : String) (row : Entry) (hother : t'.get? other name = some row) :
      t.get? other name = some row := by
    by_cases hname : region = other ∧ key = name
    · obtain ⟨rfl, rfl⟩ := hname
      obtain hnone | hsame := hrow
      · cases hnone.symm.trans hother
      · exact hsame ▸ hother
    · exact hothers other name hname ▸ hother
  refine ⟨t', ⟨?_, hstore ▸ later, ?_, ?_⟩, ⟨?_, ?_⟩, hrows, hothers⟩
  · apply h.of_fewer (hstore ▸ hs) named hrows
    · intro other name hin
      obtain ⟨hne, hold⟩ := (e.known_removeKey region key other name).mp hin
      exact ⟨hold, hothers other name hne⟩
    · intro other name entry hm
      rw [Engine.memory_removeKey] at hm
      split at hm
      · cases hm
      · exact hm
  · rw [Engine.signals_removeKey, List.append_nil]
  · intro other name
    rw [hcell]
    split
    · rename_i hname
      obtain ⟨rfl, rfl⟩ := hname
      exact .one (.inr ⟨⟨rfl, rfl⟩, .head _⟩) (.forget hrow)
    · rename_i hne
      rw [Engine.cell_of_row (hothers other name hne)]
      exact .refl _
  · rw [hcell, if_pos ⟨rfl, rfl⟩]
  · intro answered
    rw [hcell, if_pos ⟨rfl, rfl⟩, hlost (hstore ▸ answered)]
    rfl

omit [Store σ] reliable in
/-- A key that is gone stays gone while others go. -/
theorem gone_cons {e₁ e' : Engine (Faulty σ)} {t₁ t' : Table} {now : Nat} {region key : String}
    {rest : List String} {told : List Signal} (hgone : Gone e e₁ t₁ region key)
    (later : e.store.Later e₁.store)
    (hrest : Moves stands now (.anyOf region rest [.forget]) told
      e₁ t₁ e' t')
    (hgones : ∀ name ∈ rest, Gone e₁ e' t' region name) :
    ∀ name ∈ key :: rest, Gone e e' t' region name := by
  intro name hname
  obtain rfl | hname := List.mem_cons.mp hname
  · exact hgone.stays hrest (Reach.not_onto (by decide) (by decide))
      (Reach.not_onto (by decide) (by decide)) (Reach.not_onto (by decide) (by decide))
  · exact (hgones name hname).after later

theorem removeKeys (h : Backed stands e t) (now : Nat) (region : String) (keys : List String) :
    ∃ t' told, Done stands now (.anyOf region keys [.forget])
        told e t (e.removeKeys region keys).2 t' ∧
      ∀ key ∈ keys, Gone e (e.removeKeys region keys).2 t' region key := by
  induction keys generalizing e t with
  | nil => exact ⟨t, [], .of_moves (.refl h), nofun⟩
  | cons key rest ih =>
    obtain ⟨t₁, hmoves, hgone, -⟩ := h.removeKey reliable now region key
    cases hremove : e.removeKey region key with
    | mk was e₁ =>
      rw [hremove] at hmoves hgone
      dsimp only at hmoves hgone
      have hfirst := hmoves.mono (Reach.only_anyOf (List.mem_cons_self (l := rest)))
      have hwiden : ∀ other name kind, Reach.anyOf region rest [.forget] other name kind →
          Reach.anyOf region (key :: rest) [.forget] other name kind :=
        Reach.anyOf_mono (List.subset_cons_self key rest)
      cases was with
      | false =>
        have heq : (e.removeKeys region (key :: rest)).2 = (e₁.removeKeys region rest).2 := by
          rw [Engine.removeKeys, hremove]
        rw [heq]
        obtain ⟨t', told, hdone, hgones⟩ := ih hmoves.backed
        exact ⟨t', told, (hdone.mono hwiden).after hfirst,
          gone_cons hgone hmoves.later hdone.moves hgones⟩
      | true =>
        have heq : (e.removeKeys region (key :: rest)).2 =
            ((e₁.announce (.delete region key) region key .delete).removeKeys region rest).2 := by
          rw [Engine.removeKeys, hremove]
        rw [heq]
        have htold := hfirst.announce (.delete region key) region key .delete
        have hsame : Gone e (e₁.announce (.delete region key) region key .delete) t₁ region key :=
          ⟨hgone.unknown, hgone.absent⟩
        obtain ⟨t', told, hdone, hgones⟩ := ih htold.backed
        have hgones' := gone_cons hsame htold.later hdone.moves hgones
        refine ⟨t', _, ⟨htold.trans (hdone.moves.mono hwiden), ?_⟩, hgones'⟩
        intro answered signal hsignal
        simp only [List.mem_append, List.mem_cons, List.not_mem_nil, or_false] at hsignal
        obtain (rfl | rfl) | hsignal := hsignal
        · exact (hgones' key (.head rest)).absent answered
        · trivial
        · exact hdone.holds (answered.rest hmoves.later) hsignal

theorem delete (h : Backed stands e t) (now : Nat) (region : String) (keys : List String) :
    ∃ t' told, Done stands now (.anyOf region keys [.forget])
        told e t (e.delete region keys).2 t' ∧
      ((e.region? region).isSome → ∀ key ∈ keys, Gone e (e.delete region keys).2 t' region key) := by
  unfold Engine.delete
  split
  · obtain ⟨t', told, hdone, hgones⟩ := h.removeKeys reliable now region keys
    exact ⟨t', told, hdone, fun _ => hgones⟩
  · rename_i hnone
    exact ⟨t, [], .of_moves (.refl h), fun hregion => by simp [hnone] at hregion⟩

theorem deleteKey (h : Backed stands e t) (now : Nat) (region key : String) :
    ∃ t' told, Done stands now (.only region key [.forget]) told e t (e.delete region [key]).2 t' ∧
      ((e.region? region).isSome → Gone e (e.delete region [key]).2 t' region key) := by
  obtain ⟨t', told, hdone, hgones⟩ := h.delete reliable now region [key]
  refine ⟨t', told, hdone.mono ?_, fun hregion => hgones hregion key (.head _)⟩
  apply Reach.onto_mono _ (List.Subset.refl _)
  rintro other name ⟨hregion, hname⟩
  exact ⟨hregion, (List.mem_singleton.mp hname).symm⟩

theorem expire (h : Backed stands e t) (now : Nat) (region key : String) (seconds : Int) :
    Settles stands now (.only region key [.retime, .forget]) e t
      (e.expire now region key seconds) := by
  have hquiet := Reach.quiet_onto (fun other name => region = other ∧ key = name) [.retime, .forget]
  unfold Engine.expire
  split
  · obtain ⟨t', told, hdone, -⟩ := h.deleteKey reliable now region key
    exact ⟨t', told, hdone.mono (Reach.only_mono (by decide))⟩
  · split
    · exact .idle (.refl h) false hquiet
    · obtain ⟨found, s, hpeek, hmoves, -, hfinds⟩ := h.peek reliable now region key
      rw [hpeek]
      cases found with
      | none => exact .idle hmoves false hquiet
      | some entry =>
        obtain ⟨reply, s', hupdate, ⟨rfl, hdone⟩ | ⟨⟨err, rfl⟩, hmoves'⟩⟩ :=
          hmoves.backed.updateExpiry reliable (hfinds entry rfl)
            (some (Engine.secondsAfter now seconds.toNat)) (m := .expire region key seconds)
            (fun cells hheld => ⟨entry.row, hheld⟩) .expire
        · simp only [hupdate]
          exact ⟨_, _, (hdone.mono (Reach.only_mono (by decide))).after (hmoves.mono hquiet)⟩
        · simp only [hupdate]
          exact hmoves.trans hmoves'

/-- A region that is not deleted was told to be, unless it is the default one. -/
theorem deleteRegion (h : Backed stands e t) (now : Nat) (region : String) :
    ∃ reply e', e.deleteRegion region = (reply, e') ∧
      ((∃ err, reply = .error err) ∧
          Moves stands now .quiet (if region = e.defaultRegion then []
            else [.mutation (.deleteRegion region)]) e t e' t ∨
        (∃ a, reply = .ok a) ∧ ∃ t' told,
          Done stands now (.onto (fun other _ => region = other) [.forget]) told e t e' t') := by
  unfold Engine.deleteRegion
  split
  · exact ⟨_, e, rfl, .inl ⟨⟨_, rfl⟩, .refl h⟩⟩
  · have hstore : (e.signal (.mutation (.deleteRegion region))).store = e.store := rfl
    have htold (does : Reach) : Moves stands now does [.mutation (.deleteRegion region)] e t
        (e.signal (.mutation (.deleteRegion region))) t :=
      ⟨h.of_eq rfl rfl, .refl _, rfl, fun _ _ => .refl _⟩
    dsimp only
    rw [hstore]
    obtain ⟨s, later, ⟨hdelete, hs⟩ | ⟨⟨err, hdelete⟩, hs, -⟩⟩ :=
      Faulty.deleteRegion reliable h.stored region
    · obtain ⟨e', hcleared, hmoves, habsent⟩ := (htold .quiet).backed.clearRegion now hs later
      rw [hdelete]
      refine ⟨_, _, rfl, .inr ⟨⟨(), rfl⟩, t.eraseRegion region,
        [.mutation (.deleteRegion region), .change region "*" .deleteRegion], ?_⟩⟩
      rw [hcleared]
      have hboth := (htold _).trans hmoves
      refine .of_announced ⟨hboth.backed.of_eq rfl rfl, hboth.later, ?_, hboth.path⟩ fun _ => habsent
      rw [Engine.signal, hboth.signals, List.append_assoc]
      rfl
    · rw [hdelete]
      exact ⟨_, _, rfl, .inl ⟨⟨err, rfl⟩,
        (htold .quiet).trans (.asked ((htold .quiet).backed.withStore hs) later)⟩⟩

end
end Backed
end TierCache
