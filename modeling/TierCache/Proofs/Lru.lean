import TierCache.Lru
import TierCache.Proofs.Tree

/-! The two tables of an order of use are inverse to each other, whatever was touched or removed. -/
namespace TierCache.Lru
open Std

/-- A key has a stamp exactly when the stamp has the key. -/
def Inverse (l : Lru) : Prop :=
  ∀ (key : String) (tick : Nat), l.stamps[key]? = some tick ↔ l.order[tick]? = some key

@[simp] theorem stamps_empty : empty.stamps = ∅ := rfl

@[simp] theorem stamps_touch (l : Lru) (key : String) (tick : Nat) :
    (l.touch key tick).stamps = l.stamps.insert key tick := rfl

@[simp] theorem stamps_remove (l : Lru) (key : String) :
    (l.remove key).stamps = l.stamps.erase key := by
  cases h : l.stamps[key]? with
  | none => simp only [remove, h, Tree.erase_of_none]
  | some tick => simp only [remove, h]

theorem order_touch (l : Lru) (key : String) (tick other : Nat) :
    (l.touch key tick).order[other]? =
      if other = tick then some key
      else if l.stamps[key]? = some other then none
      else l.order[other]? := by
  simp only [touch, Tree.get_insert, eq_comm (a := tick)]
  split
  · rfl
  · cases l.stamps[key]? with
    | none => simp
    | some previous => simp [Tree.get_erase]

theorem order_remove (l : Lru) (key : String) (other : Nat) :
    (l.remove key).order[other]? =
      if l.stamps[key]? = some other then none else l.order[other]? := by
  cases h : l.stamps[key]? with
  | none => simp [remove, h]
  | some tick => simp [remove, h, Tree.get_erase]

theorem inverse_empty : empty.Inverse := by
  intro key tick
  simp [empty]

theorem Inverse.key_unique {l : Lru} (h : l.Inverse) {a b : String} {tick : Nat}
    (ha : l.stamps[a]? = some tick) (hb : l.stamps[b]? = some tick) : a = b := by
  have hab := ((h a tick).mp ha).symm.trans ((h b tick).mp hb)
  exact Option.some.inj hab

/-- A tick that no key has yet may be given to any key. -/
theorem Inverse.touch {l : Lru} (h : l.Inverse) (key : String) {tick : Nat}
    (unused : ∀ other : String, l.stamps[other]? ≠ some tick) : (l.touch key tick).Inverse := by
  intro other seen
  rw [order_touch, stamps_touch, Tree.get_insert]
  by_cases hkey : key = other
  · subst hkey
    by_cases htick : seen = tick
    · simp [htick]
    · have hold : l.stamps[key]? ≠ some seen → l.order[seen]? ≠ some key :=
        fun hs ho => hs ((h key seen).mpr ho)
      simp only [htick, Ne.symm htick, ↓reduceIte, Option.some.injEq, false_iff]
      split
      · simp
      · exact hold ‹_›
  · by_cases htick : seen = tick
    · subst htick
      simp [hkey, unused other]
    · simp only [hkey, htick, ↓reduceIte]
      split
      · rename_i hs
        refine iff_of_false ?_ (by simp)
        intro ho
        exact hkey (h.key_unique hs ho)
      · exact h other seen

theorem Inverse.remove {l : Lru} (h : l.Inverse) (key : String) : (l.remove key).Inverse := by
  intro other tick
  rw [order_remove, stamps_remove, Tree.get_erase]
  by_cases hkey : key = other
  · subst hkey
    simp only [↓reduceIte, reduceCtorEq, false_iff]
    split
    · simp
    · exact fun ho => ‹¬ _› ((h key tick).mpr ho)
  · simp only [hkey, ↓reduceIte]
    split
    · rename_i hs
      refine iff_of_false ?_ (by simp)
      intro ho
      exact hkey (h.key_unique hs ho)
    · exact h other tick

/-- The oldest key carries its tick. -/
theorem Inverse.stamps_oldest {l : Lru} (h : l.Inverse) {key : String} {tick : Nat}
    (hold : l.oldest? = some (key, tick)) : l.stamps[key]? = some tick := by
  obtain ⟨t, -, hmap⟩ := Option.bind_eq_some_iff.mp hold
  obtain ⟨k, hk, heq⟩ := Option.map_eq_some_iff.mp hmap
  obtain ⟨rfl, rfl⟩ := Prod.mk.inj heq
  exact (h k t).mpr hk

/-- An order of use without an oldest key holds none. -/
theorem Inverse.stamps_of_oldest_none {l : Lru} (h : l.Inverse) (hnone : l.oldest? = none)
    (key : String) : l.stamps[key]? = none := by
  cases hs : l.stamps[key]? with
  | none => rfl
  | some tick =>
    have ho := (h key tick).mp hs
    exfalso
    cases hmin : l.order.minKey? with
    | none =>
      have hempty := ExtTreeMap.minKey?_eq_none_iff.mp hmin
      simp [hempty] at ho
    | some least =>
      have hin := ExtTreeMap.minKey?_mem hmin
      obtain ⟨k, hk⟩ := Option.isSome_iff_exists.mp (ExtTreeMap.mem_iff_isSome_getElem?.mp hin)
      simp [oldest?, hmin, hk] at hnone

end TierCache.Lru
