import TierCache.Proofs.Flat.Removing

/-!
Operations on contents of an engine that mirrors a flat cache. All four plans go by the visible row:
they read its value, alter it and write it back in its place.
-/
namespace TierCache
open Std

/-- The time of creation that is offered does not matter where a row stands. -/
theorem Flat.succeed_congr {f : Flat} {region key : String} {row row' : Row}
    (hvalue : row.value = row'.value) (hexpiry : row.expiresAt = row'.expiresAt)
    (hborn : row.createdAt = row'.createdAt ∨ (f.row? region key).isSome) :
    f.succeed region key row = f.succeed region key row' := by
  unfold Flat.succeed
  rw [hvalue, hexpiry]
  obtain hsame | hthere := hborn
  · rw [hsame]
  · obtain ⟨old, hold⟩ := Option.isSome_iff_exists.mp hthere
    simp only [hold, Option.map_some, Option.getD_some]

namespace Mirrors

variable {σ α β : Type} [Store σ] {stands : σ → Table → Prop} {e : Engine σ} {f : Flat}
  {now : Nat} {region key : String} {entry : Entry}

section
variable (reliable : Reliable stands)
include reliable

theorem writeBack (h : Mirrors stands e f) (hregion : entry.region = region)
    (hkey : entry.key = key)
    (hborn : entry.createdAt = now ∨ (f.row? region key).isSome) :
    (e.writeBack region key entry).1 = .ok () ∧
      Mirrors stands (e.writeBack region key entry).2
        (f.writeBack now region key entry.value entry.expiresAt) := by
  unfold Engine.writeBack Flat.writeBack
  split
  · exact ⟨rfl, (delete reliable region [key] h).2⟩
  · obtain ⟨hok, hm⟩ := h.put reliable entry
    have hrow : f.succeed region key entry.row =
        f.succeed region key ⟨entry.value, now, entry.expiresAt⟩ :=
      Flat.succeed_congr rfl rfl hborn
    rw [hregion, hkey, hrow] at hm
    exact ⟨hok, hm⟩

theorem editEntry (h : Mirrors stands e f) (hregion : entry.region = region)
    (hkey : entry.key = key) (hborn : entry.createdAt = now ∨ (f.row? region key).isSome)
    (c : Engine.Contents β) (change : β → Except CacheError (Edit α β)) :
    (e.editEntry region key c change entry).1 =
        (f.edit now region key c change entry.value entry.expiresAt).1 ∧
      Mirrors stands (e.editEntry region key c change entry).2
        (f.edit now region key c change entry.value entry.expiresAt).2 := by
  unfold Engine.editEntry Flat.edit
  cases c.of? entry.value with
  | none => exact ⟨rfl, h⟩
  | some contents =>
    dsimp only
    cases change contents with
    | error err => exact ⟨rfl, h⟩
    | ok edit =>
      dsimp only
      cases edit.changed with
      | false => exact ⟨rfl, h⟩
      | true =>
        have hwritten : _ ∧ Mirrors stands
            (e.writeBack region key { entry with value := c.wrap edit.after }).2
            (f.writeBack now region key (c.wrap edit.after) entry.expiresAt) :=
          h.writeBack reliable hregion hkey hborn
        simp only [if_true]
        cases hwrite : e.writeBack region key { entry with value := c.wrap edit.after } with
        | mk reply e' =>
          rw [hwrite] at hwritten
          obtain ⟨rfl, hm⟩ := hwritten
          exact ⟨rfl, hm⟩

theorem upsert (c : Engine.Contents β) (change : β → Except CacheError (Edit α β)) :
    Simulates stands (·.upsert now region key c change)
      (·.run now region key (.upsert c change)) := by
  intro e f h
  obtain ⟨found, e', hget, hfound, hm⟩ := h.getEntry reliable now region key
  simp only [Engine.upsert, Flat.run, hget, ← hfound.row]
  cases found with
  | none => exact hm.editEntry reliable rfl rfl (.inl rfl) c change
  | some entry =>
    have hcopy := hfound.copies
    have hrow : (f.row? region key).isSome := by
      rw [Flat.row?, hcopy.ofRow]
      rfl
    exact hm.editEntry reliable hcopy.ofRegion hcopy.ofKey (.inr hrow) c change

theorem update (c : Engine.Contents β) (absent : α) (change : β → Edit α β) :
    Simulates stands (·.update now region key c absent change)
      (·.run now region key (.update c absent change)) := by
  intro e f h
  obtain ⟨found, e', hget, hfound, hm⟩ := h.getEntry reliable now region key
  simp only [Engine.update, Flat.run, hget, ← hfound.row]
  cases found with
  | none => exact ⟨rfl, hm⟩
  | some entry =>
    have hcopy := hfound.copies
    have hrow : (f.row? region key).isSome := by
      rw [Flat.row?, hcopy.ofRow]
      rfl
    exact hm.editEntry reliable hcopy.ofRegion hcopy.ofKey (.inr hrow) c fun b => .ok (change b)

theorem inspect (c : Engine.Contents β) (absent : α) (read : β → α) :
    Simulates stands (·.inspect now region key c absent read)
      (·.run now region key (.inspect c absent read)) := by
  intro e f h
  obtain ⟨found, e', hget, hfound, hm⟩ := h.getEntry reliable now region key
  simp only [Engine.inspect, Flat.run, hget, ← hfound.row]
  cases found with
  | none => exact ⟨rfl, hm⟩
  | some entry =>
    simp only [Option.map_some, Entry.row]
    cases c.of? entry.value with
    | none => exact ⟨rfl, hm⟩
    | some contents => exact ⟨rfl, hm⟩

/-- An operation on contents goes by the visible row. -/
theorem typed (op : Typed α) :
    Simulates stands (·.performTyped now region key op) (·.run now region key op.plan) := by
  intro e f h
  simp only [op.performTyped_eq]
  cases op.plan with
  | refuse err => exact ⟨rfl, h⟩
  | upsert c change => exact upsert reliable c change h
  | update c absent change => exact update reliable c absent change h
  | inspect c absent read => exact inspect reliable c absent read h

end
end Mirrors
end TierCache
