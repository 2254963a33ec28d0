import Mathlib.Data.Finset.Card
import TierCache.Proofs.Flat.Alike

/-!
What flat caches that look alike answer. Replies go by what is seen, but for deletions, which count the
rows that they remove whether they are seen or not.
-/
namespace TierCache

/-- Whether the reply goes by what is seen of the keys. -/
def Operation.goesBySight {α : Type} : Operation α → Bool
  | .setValue .. | .get .. | .countLive .. | .ttl .. | .typeOf .. | .keys .. | .scan .. | .persist ..
  | .typed .. => true
  | .expire _ _ seconds => 0 < seconds
  | _ => false

namespace Flat

variable {α β : Type} {f g : Flat} {now : Nat} {region key : String}

namespace Alike

/-! ### Contents -/

theorem writeBack (h : Alike now f g) (region key : String) (value : Value)
    (expiresAt : Option Nat) :
    Alike now (f.writeBack now region key value expiresAt)
      (g.writeBack now region key value expiresAt) := by
  unfold Flat.writeBack
  split
  · exact h.delete region [key]
  · exact h.write now now region key value expiresAt

theorem edit (h : Alike now f g) (region key : String) (c : Engine.Contents β)
    (change : β → Except CacheError (Edit α β)) (value : Value) (expiresAt : Option Nat) :
    (f.edit now region key c change value expiresAt).1 =
        (g.edit now region key c change value expiresAt).1 ∧
      Alike now (f.edit now region key c change value expiresAt).2
        (g.edit now region key c change value expiresAt).2 := by
  unfold Flat.edit
  cases c.of? value with
  | none => exact ⟨rfl, h⟩
  | some contents =>
    dsimp only
    cases change contents with
    | error err => exact ⟨rfl, h⟩
    | ok edit =>
      dsimp only
      split
      · exact ⟨rfl, h.writeBack region key _ expiresAt⟩
      · exact ⟨rfl, h⟩

theorem run (h : Alike now f g) (region key : String) (plan : Typed.Plan α) :
    (f.run now region key plan).1 = (g.run now region key plan).1 ∧
      Alike now (f.run now region key plan).2 (g.run now region key plan).2 := by
  cases plan with
  | refuse err => exact ⟨rfl, h⟩
  | upsert c change =>
    obtain ⟨hf, hg⟩ | ⟨row, row', hf, hg, hvalue, hexpiry⟩ := h.visible region key
    · simp only [Flat.run, hf, hg]
      exact h.edit region key c change _ none
    · simp only [Flat.run, hf, hg, hvalue, hexpiry]
      exact h.edit region key c change row.value row.expiresAt
  | update c absent change =>
    obtain ⟨hf, hg⟩ | ⟨row, row', hf, hg, hvalue, hexpiry⟩ := h.visible region key
    · simp only [Flat.run, hf, hg]
      exact ⟨trivial, h⟩
    · simp only [Flat.run, hf, hg, hvalue, hexpiry]
      exact h.edit region key c (fun b => .ok (change b)) row.value row.expiresAt
  | inspect c absent read =>
    obtain ⟨hf, hg⟩ | ⟨row, row', hf, hg, hvalue, -⟩ := h.visible region key
    · simp only [Flat.run, hf, hg]
      exact ⟨trivial, h⟩
    · simp only [Flat.run, hf, hg, hvalue]
      cases c.of? row.value <;> exact ⟨rfl, h⟩

/-! ### Operations -/

/-- Every operation leaves caches that look alike to look alike. -/
theorem perform (h : Alike now f g) (op : Operation α) :
    Alike now (f.perform now op).2 (g.perform now op).2 := by
  cases op with
  | setValue region key value expiresAt => exact h.write now now region key value expiresAt
  | get region key =>
    have hcount (f : Flat) : Alike now f (f.get now region key).2 := by
      rw [Flat.get]
      split <;> exact ⟨fun _ _ => rfl, rfl⟩
    exact (hcount f).symm.trans (h.trans (hcount g))
  | expire region key seconds => exact h.expire region key seconds
  | persist region key => exact h.persist region key
  | delete region keys => exact h.delete region keys
  | deleteRegion region => exact h.deleteRegion region
  | sweep => exact (Alike.sweep f).symm.trans (h.trans (.sweep g))
  | typed region key op => exact (h.run region key op.plan).2
  | _ => exact h

/-- Caches that look alike give the same replies, if the replies go by what is seen. -/
theorem reply (h : Alike now f g) {op : Operation α} (hop : op.goesBySight = true) :
    (f.perform now op).1 = (g.perform now op).1 := by
  cases op with
  | setValue => rfl
  | get region key =>
    obtain ⟨hf, hg⟩ | ⟨row, row', hf, hg, hvalue, -⟩ := h.visible region key
    · simp only [Flat.perform, Flat.get, hf, hg]
    · obtain ⟨value, _, _⟩ := row
      obtain ⟨value', _, _⟩ := row'
      obtain rfl : value' = value := hvalue
      simp only [Flat.perform, Flat.get, hf, hg]
      cases value' <;> rfl
  | countLive region keys =>
    apply List.countP_congr
    intro key _
    obtain ⟨hf, hg⟩ | ⟨row, row', hf, hg, -, -⟩ := h.visible region key
    · rw [hf, hg]
    · simp only [hf, hg, Option.isSome_some]
  | ttl region key =>
    obtain ⟨hf, hg⟩ | ⟨row, row', hf, hg, -, hexpiry⟩ := h.visible region key
    · simp only [Flat.perform, hf, hg]
    · simp only [Flat.perform, hf, hg, Option.elim_some, Row.secondsLeft, hexpiry]
  | typeOf region key =>
    obtain ⟨hf, hg⟩ | ⟨row, row', hf, hg, hvalue, -⟩ := h.visible region key
    · simp only [Flat.perform, hf, hg]
    · simp only [Flat.perform, hf, hg, Option.map_some, hvalue]
  | keys region pattern => exact h.keys region pattern
  | scan region cursor pattern count =>
    exact congrArg (Engine.page · cursor count) (h.keys region pattern)
  | expire region key seconds =>
    have hpositive : ¬seconds ≤ 0 := by simpa [Operation.goesBySight] using hop
    simp only [Flat.perform, Flat.expire, if_neg hpositive]
    obtain ⟨hf, hg⟩ | ⟨row, row', hf, hg, -, -⟩ := h.visible region key <;> simp only [hf, hg]
  | persist region key =>
    simp only [Flat.perform, Flat.persist]
    obtain ⟨hf, hg⟩ | ⟨row, row', hf, hg, -, -⟩ := h.visible region key <;> simp only [hf, hg]
  | typed region key op => exact (h.run region key op.plan).1
  | _ => cases hop

end Alike

/-! ### Deletion -/

/-- A deletion counts the rows that it removes. -/
theorem delete_count (f : Flat) (region : String) (keys : List String) :
    (f.delete region keys).1 =
      (keys.toFinset.filter fun key => (f.row? region key).isSome).card := by
  induction keys generalizing f with
  | nil => rfl
  | cons key rest ih =>
    rw [delete, f.contains_rows, List.toFinset_cons, Finset.filter_insert]
    split
    · -- of the rows of the rest all but the first are still there
      have hrest : (rest.toFinset.filter fun name => ((f.erase region key).row? region name).isSome) =
          (rest.toFinset.filter fun name => (f.row? region name).isSome).erase key := by
        ext name
        by_cases hname : key = name
        · simp [row?_erase, hname]
        · simp [row?_erase, hname, Ne.symm hname]
      have hcount := ih ((f.erase region key).tell
        [.delete region key, .change region key .delete])
      dsimp only
      rw [hcount]
      change (rest.toFinset.filter fun name =>
        ((f.erase region key).row? region name).isSome).card + 1 = _
      rw [hrest, ← Finset.erase_insert_eq_erase, Finset.card_erase_add_one (Finset.mem_insert_self ..)]
    · exact ih f

/-- Of the rows that a deletion removes some are visible, and the others are expired. -/
theorem delete_count_visible (f : Flat) (now : Nat) (region : String) (keys : List String) :
    (f.delete region keys).1 =
      (keys.toFinset.filter fun key => (f.visible? now region key).isSome).card +
        (keys.toFinset.filter fun key =>
          (f.row? region key).isSome ∧ f.visible? now region key = none).card := by
  rw [delete_count,
    ← Finset.card_filter_add_card_filter_not fun key => (f.visible? now region key).isSome,
    Finset.filter_filter, Finset.filter_filter]
  congr 2
  · apply Finset.filter_congr
    intro key _
    exact and_iff_right_of_imp isSome_of_visible
  · simp only [Option.not_isSome_iff_eq_none]

end Flat
end TierCache
