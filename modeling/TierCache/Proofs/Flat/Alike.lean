import TierCache.Proofs.Flat.Rows

/-!
Flat caches that look alike at a reading of the clock: what is visible in one is visible in the
other, with the same value and the same moment of expiry. What was expired, when a row was created
and what was told are no part of it.
-/
namespace TierCache

/-- What a reader sees of a row: its value and its moment of expiry. -/
def Row.seen (row : Row) (now : Nat) : Option (Value × Option Nat) :=
  if row.isVisible now then some (row.value, row.expiresAt) else none

/-- What is seen later is seen now, unless the clock was set back. -/
theorem Row.seen_later (row : Row) {now later : Nat} (hle : now ≤ later) :
    row.seen later = (row.seen now).bind fun s => Row.seen ⟨s.1, row.createdAt, s.2⟩ later := by
  by_cases hnow : row.isVisible now = true
  · rw [Row.seen, Row.seen, if_pos hnow]
    rfl
  · have hlater : ¬ row.isVisible later = true := fun h => hnow (isVisible_of_later hle h)
    rw [Row.seen, Row.seen, if_neg hnow, if_neg hlater]
    rfl

namespace Flat

variable (f : Flat) (now : Nat) (region key : String)

def seen : Option (Value × Option Nat) := (f.row? region key).bind (·.seen now)

theorem seen_eq :
    f.seen now region key = (f.visible? now region key).map fun row => (row.value, row.expiresAt) := by
  rw [seen, visible?]
  cases f.row? region key with
  | none => rfl
  | some row =>
    rw [Option.bind_some, Option.filter_some, Row.seen]
    split <;> rfl

@[simp] theorem seen_tell (notices : List Notice) :
    (f.tell notices).seen now region key = f.seen now region key := rfl

theorem seen_place (other name : String) (row : Row) :
    (f.place region key row).seen now other name =
      if (⟨region, key⟩ : RowId) = ⟨other, name⟩ then row.seen now else f.seen now other name := by
  rw [seen, row?_place]
  split <;> rfl

theorem defaultRegion_delete (keys : List String) :
    (f.delete region keys).2.defaultRegion = f.defaultRegion := by
  induction keys generalizing f with
  | nil => rfl
  | cons first rest ih =>
    rw [delete]
    split
    · exact ih _
    · exact ih f

/-- Deleted keys are not seen, and nothing else changes. -/
theorem seen_delete (keys : List String) (other name : String) :
    (f.delete region keys).2.seen now other name =
      if region = other ∧ name ∈ keys then none else f.seen now other name := by
  induction keys generalizing f with
  | nil => simp [delete]
  | cons first rest ih =>
    have herase : ((f.erase region first).seen now other name) =
        if (⟨region, first⟩ : RowId) = ⟨other, name⟩ then none else f.seen now other name := by
      rw [seen, row?_erase]
      split <;> rfl
    rw [delete, f.contains_rows]
    split
    · dsimp only
      rw [ih, seen_tell, herase]
      by_cases hregion : region = other
      · by_cases hname : first = name
        · simp [hregion, hname]
        · simp [hregion, hname, Ne.symm hname]
      · simp [hregion]
    · rename_i hnone
      rw [ih]
      by_cases hfirst : region = other ∧ first = name
      · have hout : f.row? other name = none := by
          rw [← hfirst.1, ← hfirst.2]
          simpa using hnone
        simp [hfirst.1, hfirst.2, seen, hout]
      · have hname : region = other → name ≠ first := fun hr hn => hfirst ⟨hr, hn.symm⟩
        by_cases hregion : region = other
        · simp [hregion, hname hregion]
        · simp [hregion]

theorem defaultRegion_deleteRegion : (f.deleteRegion region).2.defaultRegion = f.defaultRegion := by
  rw [deleteRegion]
  split <;> rfl

/-- Nothing is seen of a deleted region; the default region stays. -/
theorem seen_deleteRegion (other name : String) :
    (f.deleteRegion region).2.seen now other name =
      if region ≠ f.defaultRegion ∧ region = other then none else f.seen now other name := by
  rw [deleteRegion]
  by_cases hdefault : region = f.defaultRegion
  · simp [hdefault]
  · rw [if_neg hdefault]
    dsimp only
    rw [seen_tell, seen, row?_keep, seen]
    by_cases hregion : region = other
    · subst hregion
      rw [if_pos ⟨hdefault, rfl⟩]
      cases f.row? region name with
      | none => rfl
      | some row => simp
    · rw [if_neg fun h => hregion h.2]
      cases f.row? other name with
      | none => rfl
      | some row => simp [Ne.symm hregion, Option.filter_some]

/-- Two flat caches look alike at a reading of the clock. -/
structure Alike (now : Nat) (f g : Flat) : Prop where
  seen (region key : String) : f.seen now region key = g.seen now region key
  defaultRegion : f.defaultRegion = g.defaultRegion

namespace Alike

variable {f g h : Flat} {now : Nat}

theorem refl (f : Flat) : Alike now f f := ⟨fun _ _ => rfl, rfl⟩

theorem symm (h : Alike now f g) : Alike now g f :=
  ⟨fun region key => (h.seen region key).symm, h.defaultRegion.symm⟩

theorem trans (h₁ : Alike now f g) (h₂ : Alike now g h) : Alike now f h :=
  ⟨fun region key => (h₁.seen region key).trans (h₂.seen region key),
    h₁.defaultRegion.trans h₂.defaultRegion⟩

/-- What looks alike does so until the clock is set back. -/
theorem later (h : Alike now f g) {later : Nat} (hle : now ≤ later) : Alike later f g := by
  refine ⟨fun region key => ?_, h.defaultRegion⟩
  have hseen (f : Flat) : f.seen later region key =
      (f.seen now region key).bind fun s => Row.seen ⟨s.1, 0, s.2⟩ later := by
    rw [Flat.seen, Flat.seen, Option.bind_assoc]
    cases f.row? region key with
    | none => rfl
    | some row => exact row.seen_later hle
  rw [hseen f, hseen g, h.seen]

theorem tell (h : Alike now f g) (notices notices' : List Notice) :
    Alike now (f.tell notices) (g.tell notices') := ⟨h.seen, h.defaultRegion⟩

theorem retold (h : Alike now f g) (told told' : List Notice) :
    Alike now { f with told } { g with told := told' } := ⟨h.seen, h.defaultRegion⟩

theorem place (h : Alike now f g) (region key : String) {row row' : Row}
    (hrow : row.seen now = row'.seen now) :
    Alike now (f.place region key row) (g.place region key row') := by
  refine ⟨fun other name => ?_, h.defaultRegion⟩
  rw [seen_place, seen_place, hrow, h.seen]

/-- A row looks the same whenever it is written. -/
theorem write (h : Alike now f g) (reading reading' : Nat) (region key : String) (value : Value)
    (expiresAt : Option Nat) :
    Alike now (f.write reading region key value expiresAt)
      (g.write reading' region key value expiresAt) := by
  have hrow : (f.succeed region key ⟨value, reading, expiresAt⟩).seen now =
      (g.succeed region key ⟨value, reading', expiresAt⟩).seen now := rfl
  exact (h.place region key hrow).tell _ _

theorem delete (h : Alike now f g) (region : String) (keys : List String) :
    Alike now (f.delete region keys).2 (g.delete region keys).2 := by
  constructor
  · intro other name
    rw [seen_delete, seen_delete, h.seen]
  · rw [defaultRegion_delete, defaultRegion_delete, h.defaultRegion]

theorem deleteRegion (h : Alike now f g) (region : String) :
    Alike now (f.deleteRegion region).2 (g.deleteRegion region).2 := by
  constructor
  · intro other name
    rw [seen_deleteRegion, seen_deleteRegion, h.seen, h.defaultRegion]
  · rw [defaultRegion_deleteRegion, defaultRegion_deleteRegion, h.defaultRegion]

/-- A sweep removes nothing that is seen. -/
theorem sweep (f : Flat) : Alike now f (f.sweep now).2 := by
  refine ⟨fun region key => ?_, rfl⟩
  have hkeep : (f.sweep now).2.seen now region key =
      ((f.row? region key).filter (·.isVisible now)).bind (·.seen now) :=
    congrArg (·.bind (Row.seen · now)) (f.row?_keep (fun _ row => row.isVisible now) region key)
  rw [hkeep, Flat.seen]
  cases f.row? region key with
  | none => rfl
  | some row =>
    rw [Option.filter_some, Option.bind_some, Row.seen]
    split
    · rename_i hvisible
      rw [Option.bind_some, Row.seen, if_pos hvisible]
    · rfl

/-- A key is visible in both, with the same value and the same moment of expiry, or in neither. -/
theorem visible (h : Alike now f g) (region key : String) :
    (f.visible? now region key = none ∧ g.visible? now region key = none) ∨
      ∃ row row', f.visible? now region key = some row ∧ g.visible? now region key = some row' ∧
        row'.value = row.value ∧ row'.expiresAt = row.expiresAt := by
  have hseen := h.seen region key
  rw [seen_eq, seen_eq] at hseen
  cases hf : f.visible? now region key with
  | none =>
    rw [hf, Option.map_none, eq_comm, Option.map_eq_none_iff] at hseen
    exact .inl ⟨rfl, hseen⟩
  | some row =>
    rw [hf, Option.map_some, eq_comm, Option.map_eq_some_iff] at hseen
    obtain ⟨row', hg, hrow⟩ := hseen
    exact .inr ⟨row, row', rfl, hg, congrArg Prod.fst hrow, congrArg Prod.snd hrow⟩

/-- At the reading at which they look alike, a key is let expire in both or in neither. -/
theorem expire (h : Alike now f g) (region key : String) (seconds : Int) :
    Alike now (f.expire now region key seconds).2 (g.expire now region key seconds).2 := by
  unfold Flat.expire
  by_cases hseconds : seconds ≤ 0
  · rw [if_pos hseconds, if_pos hseconds]
    exact h.delete region [key]
  · rw [if_neg hseconds, if_neg hseconds]
    obtain ⟨hf, hg⟩ | ⟨row, row', hf, hg, hvalue, -⟩ := h.visible region key
    · rw [hf, hg]
      exact h
    · rw [hf, hg]
      have hrow : Row.seen { row with expiresAt := some (Engine.secondsAfter now seconds.toNat) } now =
          Row.seen { row' with expiresAt := some (Engine.secondsAfter now seconds.toNat) } now := by
        rw [Row.seen, Row.seen, hvalue]
        rfl
      exact (h.place region key hrow).tell _ _

/-- A moment of expiry is cleared in both or in neither. -/
theorem persist (h : Alike now f g) (region key : String) :
    Alike now (f.persist now region key).2 (g.persist now region key).2 := by
  unfold Flat.persist
  obtain ⟨hf, hg⟩ | ⟨row, row', hf, hg, hvalue, -⟩ := h.visible region key
  · rw [hf, hg]
    exact h
  · rw [hf, hg]
    have hrow : Row.seen { row with expiresAt := none } now =
        Row.seen { row' with expiresAt := none } now := by
      rw [Row.seen, Row.seen, hvalue]
      rfl
    exact (h.place region key hrow).tell _ _

/-- Caches that look alike list the same keys. -/
theorem keys (h : Alike now f g) (region pattern : String) :
    f.keys now region pattern = g.keys now region pattern := by
  apply Tree.eq_of_ordered (f.keys_ordered now region pattern) (g.keys_ordered now region pattern)
  intro key
  have hsome (f : Flat) : (f.visible? now region key).isSome = (f.seen now region key).isSome := by
    rw [seen_eq, Option.isSome_map]
  rw [mem_keys, mem_keys, hsome f, hsome g, h.seen]

end Alike
end Flat
end TierCache
