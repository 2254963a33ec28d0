import TierCache.Json.Read
import TierCache.Proofs.Json.Sorted

/-!
A value that was read is read again from its own text: reading put its members in order and its
numbers into range, and writing keeps both.
-/
namespace TierCache.Json

/-- A number that is in range is written as a numeral that stands for it. -/
theorem value?_written_num {n : Numeral} {j : Json} (h : ofNumeral? n = some j) (room : Nat) :
    (written j).value? room = some j := by
  unfold ofNumeral? at h
  dsimp only at h
  split at h
  · rename_i hrange
    cases h
    rw [written, tree, Raw.value?, ofNumeral?_nat hrange.2.2]
  · split at h
    · rename_i hrange
      cases h
      rw [written, tree, Raw.value?, ofNumeral?_neg hrange.2.2.1 hrange.2.2.2]
    · split at h
      · rename_i hfinite
        cases h
        rw [written, tree, if_pos hfinite, Raw.value?, faithful_floatNumeral _ hfinite]
      · cases h

theorem written_arr (items : List Json) : written (.arr items) = .arr (items.map written) := by
  rw [written, tree, treeItems_eq_map]
  rfl

theorem written_obj (members : List (String × Json)) :
    written (.obj members) = .obj (members.map fun m => (some m.1, written m.2)) := by
  rw [written, tree, treeMembers_eq_map]
  rfl

namespace Raw

theorem pairs?_cons_eq_some {room : Nat} {k : Option String} {v : Raw}
    {rest : List (Option String × Raw)} {ps : List (String × Json)}
    (h : pairs? room ((k, v) :: rest) = some ps) :
    ∃ key j more, value? room v = some j ∧ pairs? room rest = some more ∧ ps = (key, j) :: more := by
  rw [pairs?.eq_def] at h
  dsimp only at h
  split at h
  · rename_i key j more hv hrest
    cases h
    exact ⟨key, j, more, hv, hrest, rfl⟩
  · cases h

mutual

/-- What any JSON was read as is read again from its text. -/
theorem value?_written (v : Raw) {room : Nat} {j : Json} (h : v.value? room = some j) :
    (written j).value? room = some j := by
  match v with
  | .null =>
    rw [value?] at h
    cases h
    rw [written, tree, value?]
  | .bool b =>
    rw [value?] at h
    cases h
    rw [written, tree, value?]
  | .num n =>
    rw [value?] at h
    exact value?_written_num h room
  | .str s =>
    rw [value?] at h
    obtain ⟨text, rfl, rfl⟩ := Option.map_eq_some_iff.1 h
    rw [written, tree, value?, Option.map_some]
  | .arr items =>
    cases room with
    | zero =>
      rw [value?] at h
      cases h
    | succ room =>
      rw [value?] at h
      obtain ⟨js, hitems, rfl⟩ := Option.map_eq_some_iff.1 h
      have hback : items? room (js.map written) = some (js.map id) :=
        items?_map (items?_written items hitems)
      rw [written_arr]
      exact value?_arr (by rwa [List.map_id] at hback)
  | .obj members =>
    cases room with
    | zero =>
      rw [value?] at h
      cases h
    | succ room =>
      rw [value?] at h
      obtain ⟨ps, hpairs, rfl⟩ := Option.map_eq_some_iff.1 h
      have hback : ∀ m ∈ byKey ps, (written m.2).value? room = some m.2 := fun m hm =>
        pairs?_written members hpairs m (mem_byKey hm)
      have hmembers := pairs?_map (k := (·.1)) hback
      have hordered := byKey_of_perm (.refl _) (inOrder_byKey ps)
      rw [written_obj, value?_obj (by simpa using hmembers), hordered]
  | .broken =>
    rw [value?] at h
    cases h

theorem items?_written (vs : List Raw) {room : Nat} {js : List Json} (h : items? room vs = some js) :
    ∀ j ∈ js, (written j).value? room = some j := by
  match vs with
  | [] =>
    rw [items?] at h
    cases h
    exact nofun
  | v :: rest =>
    rw [items?] at h
    split at h
    · rename_i j js hfirst hrest
      cases h
      exact List.forall_mem_cons.2 ⟨value?_written v hfirst, items?_written rest hrest⟩
    · cases h

theorem pairs?_written (ms : List (Option String × Raw)) {room : Nat} {ps : List (String × Json)}
    (h : pairs? room ms = some ps) : ∀ p ∈ ps, (written p.2).value? room = some p.2 := by
  match ms with
  | [] =>
    rw [pairs?] at h
    cases h
    exact nofun
  | (k, v) :: rest =>
    obtain ⟨key, j, more, hv, hrest, rfl⟩ := pairs?_cons_eq_some h
    exact List.forall_mem_cons.2 ⟨value?_written v hv, pairs?_written rest hrest⟩

end
end Raw

/-! ### What was read of a field -/

theorem ok_of_bind {ε α β : Type} {x : Except ε α} {f : α → Except ε β} {b : β}
    (h : x >>= f = .ok b) : ∃ a, x = .ok a ∧ f a = .ok b := by
  cases x with
  | error e => cases h
  | ok a => exact ⟨a, rfl, h⟩

/-- An integer that a numeral stands for is within 64 bits. -/
theorem le_of_ofNumeral? {m : Numeral} {n : Nat} (h : ofNumeral? m = some (.int n)) :
    n ≤ Text.maxUnsigned := by
  unfold ofNumeral? at h
  dsimp only at h
  split at h
  · rename_i hrange
    cases h
    exact hrange.2.2
  · split at h
    · simp only [Option.some.injEq, Json.int.injEq] at h
      omega
    · split at h <;> cases h

theorem ofNumeral?_ne_null {m : Numeral} : ofNumeral? m ≠ some .null := by
  unfold ofNumeral?
  dsimp only
  split
  · exact nofun
  · split
    · exact nofun
    · split <;> exact nofun

namespace Raw

theorem mismatch_ne_ok {α : Type} {v : Raw} {a : α} : v.mismatch ≠ .ok a := by
  unfold mismatch
  split
  · exact nofun
  · exact nofun
  · split <;> exact nofun
  · exact nofun

theorem unsigned_le {v : Raw} {n : Nat} (h : unsigned v = .ok n) : n ≤ Text.maxUnsigned := by
  unfold unsigned at h
  split at h
  · split at h
    · rename_i hnumeral
      cases h
      exact le_of_ofNumeral? hnumeral
    · cases h
    · cases h
  · exact absurd h mismatch_ne_ok

theorem eq_of_needed {α : Type} {read : Raw → Except Fault α} {v : Option Raw} {a : α}
    (h : needed read v = .ok a) : ∃ w, read w = .ok a := by
  cases v with
  | none => cases h
  | some w => exact ⟨w, h⟩

theorem optional_of_ne_null {α : Type} {read : Raw → Except Fault α} {v : Raw} (h : v ≠ .null) :
    optional read v = (read v).map some := by
  cases v with
  | null => exact absurd rfl h
  | _ => rfl

/-- What may be null or left off is none, or it was read. -/
theorem eq_of_optional {α : Type} {read : Raw → Except Fault α} {v : Option Raw} {found : Option α}
    (h : orElse none (optional read) v = .ok found) :
    ∀ a ∈ found, ∃ w, w ≠ .null ∧ read w = .ok a := by
  rintro a rfl
  cases v with
  | none => cases h
  | some w =>
    have hnull : w ≠ .null := by
      rintro rfl
      cases h
    rw [orElse, optional_of_ne_null hnull] at h
    cases hread : read w with
    | error f =>
      rw [hread] at h
      cases h
    | ok b =>
      rw [hread] at h
      cases h
      exact ⟨w, hnull, hread⟩

theorem eq_null_of_value? {room : Nat} {v : Raw} (h : v.value? room = some .null) : v = .null := by
  cases v with
  | null => rfl
  | num n =>
    rw [value?] at h
    exact absurd h ofNumeral?_ne_null
  | bool b => rw [value?] at h; cases h
  | str s =>
    rw [value?] at h
    cases s <;> cases h
  | arr items =>
    cases room with
    | zero => rw [value?] at h; cases h
    | succ room =>
      rw [value?] at h
      obtain ⟨js, -, hjs⟩ := Option.map_eq_some_iff.1 h
      cases hjs
  | obj members =>
    cases room with
    | zero => rw [value?] at h; cases h
    | succ room =>
      rw [value?] at h
      obtain ⟨ps, -, hps⟩ := Option.map_eq_some_iff.1 h
      cases hps
  | broken => rw [value?] at h; cases h

end Raw
end TierCache.Json
