import TierCache.Proofs.Json.Text

/-!
A text that breaks off inside a value holds no value: what reads a value looks at no character behind
it, and where nothing is left behind a value something in it is broken.
-/
namespace TierCache.Json

/-! ### What comes behind a value is not looked at -/

section
variable (more : List Char)

theorem skipSpace_more {cs rest : List Char} {c : Char} (h : skipSpace cs = c :: rest) :
    skipSpace (cs ++ more) = c :: (rest ++ more) := by
  have hsome : List.dropWhile isSpace cs ≠ [] := by
    intro hnil
    cases hnil.symm.trans h
  rw [skipSpace, List.dropWhile_append, if_neg (by simpa using hsome)]
  exact congrArg (· ++ more) h

theorem scanString_more {cs rest : List Char} {us : List Unit16}
    (h : scanString cs = some (us, rest)) :
    scanString (cs ++ more) = some (us, rest ++ more) := by
  fun_induction scanString cs generalizing us rest with
  | case1 => cases h
  | case2 =>
    cases h
    rfl
  | case3 a b c d cs n hn ih =>
    obtain ⟨⟨us', rest'⟩, hscan, heq⟩ := Option.map_eq_some_iff.1 h
    cases heq
    simp only [List.cons_append, scanString, hn, ih hscan, Option.map_some]
  | case4 => cases h
  | case5 e cs hu c hc ih =>
    obtain ⟨⟨us', rest'⟩, hscan, heq⟩ := Option.map_eq_some_iff.1 h
    cases heq
    have hne : e ≠ 'u' := by
      rintro rfl
      have hno : shortEscape? 'u' = none := rfl
      rw [hno] at hc
      cases hc
    simp [scanString, hne, hc, ih hscan]
  | case6 => cases h
  | case7 => cases h
  | case8 c cs h1 h2 h3 hplain ih =>
    obtain ⟨⟨us', rest'⟩, hscan, heq⟩ := Option.map_eq_some_iff.1 h
    cases heq
    rw [not_or] at hplain
    simp only [List.cons_append]
    rw [scanString]
    · simp [hplain, ih hscan]
    · exact h1
    · intro a b c' d rest heq
      exact absurd heq hplain.2
    · intro e rest heq
      exact absurd heq hplain.2

theorem scanDigits_more {acc count : Nat} {cs rest : List Char} {n k : Nat}
    (h : scanDigits acc count cs = (n, k, rest)) (hsome : rest ≠ []) :
    scanDigits acc count (cs ++ more) = (n, k, rest ++ more) := by
  fun_induction scanDigits acc count cs with
  | case1 =>
    cases h
    exact absurd rfl hsome
  | case2 acc count c cs d hd ih =>
    simp only [List.cons_append, scanDigits, hd]
    exact ih h
  | case3 acc count c cs hc =>
    cases h
    simp only [List.cons_append, scanDigits, hc]

theorem scanExponent_more {n m : Numeral} {negative : Bool} {cs rest : List Char}
    (h : scanExponent n negative cs = some (m, rest)) (hsome : rest ≠ []) :
    scanExponent n negative (cs ++ more) = some (m, rest ++ more) := by
  unfold scanExponent at h ⊢
  split at h
  · cases h
  · rename_i e k left hk hscan
    cases h
    rw [scanDigits_more more hscan hsome]
    split
    · rename_i heq
      simp only [Prod.mk.injEq] at heq
      exact absurd heq.2.1 hk
    · rename_i heq
      cases heq
      rfl

theorem scanPower_more {n m : Numeral} {cs rest : List Char}
    (h : scanPower n cs = some (m, rest)) (hsome : rest ≠ []) :
    scanPower n (cs ++ more) = some (m, rest ++ more) := by
  unfold scanPower at h
  split at h
  · rename_i c cs
    split at h
    · rename_i hletter
      simp only [List.cons_append, scanPower, hletter, if_true]
      split at h
      · exact scanExponent_more more h hsome
      · exact scanExponent_more more h hsome
      · rename_i hminus hplus
        have hmore := scanExponent_more more h hsome
        cases cs with
        | nil => exact absurd h (by simp [scanExponent, scanDigits])
        | cons d ds =>
          simp only [List.cons_append] at hmore ⊢
          split
          · rename_i heq
            cases heq
            exact absurd rfl (hminus _)
          · rename_i heq
            cases heq
            exact absurd rfl (hplus _)
          · exact hmore
    · rename_i hletter
      cases h
      simp only [List.cons_append, scanPower, hletter]
      rfl
  · cases h
    exact absurd rfl hsome

theorem scanFraction_more {n m : Numeral} {cs rest : List Char}
    (h : scanFraction n cs = some (m, rest)) (hsome : rest ≠ []) :
    scanFraction n (cs ++ more) = some (m, rest ++ more) := by
  unfold scanFraction at h
  split at h
  · rename_i cs
    split at h
    · cases h
    · rename_i value places left hplaces hscan
      have hleft : left ≠ [] := by
        rintro rfl
        cases h
        exact hsome rfl
      have hmore := scanDigits_more more hscan hleft
      simp only [List.cons_append, scanFraction, hmore]
      exact scanPower_more more h hsome
  · rename_i hpoint
    have hmore := scanPower_more more h hsome
    cases cs with
    | nil =>
      cases h
      exact absurd rfl hsome
    | cons c cs =>
      rw [List.cons_append, scanFraction]
      · exact hmore
      · rintro rest heq
        cases heq
        exact hpoint _ rfl

theorem scanNumber_more {n : Numeral} {negative : Bool} {cs rest : List Char}
    (h : scanNumber negative cs = some (n, rest)) (hsome : rest ≠ []) :
    scanNumber negative (cs ++ more) = some (n, rest ++ more) := by
  unfold scanNumber at h
  split at h
  · rename_i c cs
    split at h
    · cases h
    · rename_i hdigit
      simp only [List.cons_append, scanNumber, hdigit]
      exact scanFraction_more more h hsome
  · rename_i hzero
    split at h
    · cases h
    · rename_i value k left hk hscan
      have hleft : left ≠ [] := by
        rintro rfl
        cases h
        exact hsome rfl
      have hmore := scanDigits_more more hscan hleft
      rw [scanNumber]
      · rw [hmore]
        split
        · rename_i heq
          simp only [Prod.mk.injEq] at heq
          exact absurd heq.2.1 hk
        · rename_i heq
          cases heq
          exact scanFraction_more more h hsome
      · intro c ds heq
        -- a zero alone leaves nothing behind it
        cases cs with
        | nil => exact hk (Prod.mk.inj (Prod.mk.inj hscan).2).1.symm
        | cons b bs =>
          obtain ⟨rfl, heq⟩ := List.cons.inj heq
          cases bs with
          | nil => exact hleft (Prod.mk.inj (Prod.mk.inj hscan).2).2.symm
          | cons e es => exact hzero e es rfl

theorem head_scanNumber {negative : Bool} {cs rest : List Char} {n : Numeral}
    (h : scanNumber negative cs = some (n, rest)) : ∃ c ∈ cs.head?, c.isDigit = true := by
  cases cs with
  | nil => cases h
  | cons c cs =>
    refine ⟨c, rfl, ?_⟩
    by_contra hc
    rw [Bool.not_eq_true] at hc
    rw [scanNumber, scanDigits_stop (by rintro d ⟨⟩; exact hc)] at h
    · cases h
    · rintro d ds heq
      cases heq
      cases hc

/-- A number ends where something else follows; every other value shows its end by itself. -/
def Ends (v : Raw) (rest : List Char) : Prop := rest = [] → ∀ n, v ≠ .num n

theorem ends_of_head {v : Raw} {rest left : List Char} {c : Char} (h : skipSpace rest = c :: left) :
    Ends v rest := by
  rintro rfl
  cases h

/-- What is read with this much fuel is read alike when more follows, and with more fuel. -/
structure Extends (fuel : Nat) : Prop where
  value {fuel' : Nat} {cs rest : List Char} {v : Raw} (h : readValue fuel cs = (v, some rest))
    (hends : Ends v rest) (hle : fuel ≤ fuel') :
    readValue fuel' (cs ++ more) = (v, some (rest ++ more))
  items {fuel' : Nat} {cs rest : List Char} {vs : List Raw}
    (h : readItems fuel cs = (vs, some rest)) (hle : fuel ≤ fuel') :
    readItems fuel' (cs ++ more) = (vs, some (rest ++ more))
  members {fuel' : Nat} {cs rest : List Char} {ms : List (Option String × Raw)}
    (h : readMembers fuel cs = (ms, some rest)) (hle : fuel ≤ fuel') :
    readMembers fuel' (cs ++ more) = (ms, some (rest ++ more))

theorem readValue_nil (fuel : Nat) : readValue fuel [] = (.broken, none) := by
  cases fuel <;> rfl

theorem readItems_nil (fuel : Nat) : readItems fuel [] = ([.broken], none) := by
  cases fuel with
  | zero => rfl
  | succ fuel => rw [readItems, readValue_nil]

theorem readMembers_nil (fuel : Nat) : readMembers fuel [] = ([(none, .broken)], none) := by
  cases fuel <;> rfl

/-- What is behind an opening bracket: the closing one, or what `read` makes of the rest. -/
def inside {α : Type} (close : Char) (wrap : List α → Raw)
    (read : List Char → List α × Option (List Char)) (cs : List Char) : Raw × Option (List Char) :=
  match skipSpace cs with
  | [] => (wrap (read []).1, (read []).2)
  | c :: rest =>
    if c = close then (wrap [], some rest)
    else (wrap (read (c :: rest)).1, (read (c :: rest)).2)

theorem readValue_bracket {fuel : Nat} {cs left : List Char} (h : skipSpace cs = '[' :: left) :
    readValue (fuel + 1) cs = inside ']' .arr (readItems fuel) left := by
  rw [readValue, h, inside]
  cases hspace : skipSpace left with
  | nil => simp only [hspace]
  | cons c rest =>
    simp only [hspace]
    split
    · rename_i heq
      obtain ⟨rfl, rfl⟩ := List.cons.inj heq
      rfl
    · rename_i hopen
      rw [if_neg (fun hclose => hopen rest (by rw [hclose]))]

theorem readValue_brace {fuel : Nat} {cs left : List Char} (h : skipSpace cs = '{' :: left) :
    readValue (fuel + 1) cs = inside '}' .obj (readMembers fuel) left := by
  rw [readValue, h, inside]
  cases hspace : skipSpace left with
  | nil => simp only [hspace]
  | cons c rest =>
    simp only [hspace]
    split
    · rename_i heq
      obtain ⟨rfl, rfl⟩ := List.cons.inj heq
      rfl
    · rename_i hopen
      rw [if_neg (fun hclose => hopen rest (by rw [hclose]))]

section
variable {α : Type} {close : Char} {wrap : List α → Raw}
  {read : List Char → List α × Option (List Char)} {left : List Char} {v : Raw}

theorem inside_more {read' : List Char → List α × Option (List Char)} {rest : List Char}
    (hnil : (read []).2 = none)
    (hread : ∀ {cs rest : List Char} {found : List α}, read cs = (found, some rest) →
      read' (cs ++ more) = (found, some (rest ++ more)))
    (h : inside close wrap read left = (v, some rest)) :
    inside close wrap read' (left ++ more) = (v, some (rest ++ more)) := by
  unfold inside at h
  split at h
  · rw [hnil] at h
    cases h
  · rename_i c tail hspace
    simp only [inside, skipSpace_more more hspace]
    split at h
    · rename_i hclose
      cases h
      rw [if_pos hclose]
    · rename_i hclose
      rcases hfound : read (c :: tail) with ⟨found, after⟩
      rw [hfound] at h
      cases h
      rw [if_neg hclose, ← List.cons_append, hread hfound]

theorem inside_broken (h : inside close wrap read left = (v, none)) :
    ∃ cs found, read cs = (found, none) ∧ v = wrap found := by
  unfold inside at h
  split at h
  · obtain ⟨hv, hnone⟩ := Prod.mk.inj h
    exact ⟨[], _, Prod.ext rfl hnone, hv.symm⟩
  · split at h
    · cases h
    · rename_i c tail _ _
      obtain ⟨hv, hnone⟩ := Prod.mk.inj h
      exact ⟨c :: tail, _, Prod.ext rfl hnone, hv.symm⟩
end

section
variable {more} {fuel : Nat} (hext : Extends more fuel)
include hext

theorem Extends.value_succ {fuel' : Nat} {cs rest : List Char} {v : Raw}
    (h : readValue (fuel + 1) cs = (v, some rest)) (hends : Ends v rest) (hle : fuel ≤ fuel') :
    readValue (fuel' + 1) (cs ++ more) = (v, some (rest ++ more)) := by
  have hread := h
  rw [readValue] at h
  split at h
  case h_1 | h_2 | h_3 =>
    rename_i heq
    cases h
    rw [readValue, skipSpace_more more heq]
    rfl
  case h_4 =>
    rename_i heq
    split at h
    · rename_i hscan
      cases h
      rw [readValue, skipSpace_more more heq]
      simp only [scanString_more more hscan]
    · cases h
  case h_5 =>
    rename_i left heq
    rw [readValue_bracket heq] at hread
    rw [readValue_bracket (skipSpace_more more heq)]
    exact inside_more more (by rw [readItems_nil]) (fun hitems => hext.items hitems hle) hread
  case h_6 =>
    rename_i left heq
    rw [readValue_brace heq] at hread
    rw [readValue_brace (skipSpace_more more heq)]
    exact inside_more more (by rw [readMembers_nil]) (fun hmembers => hext.members hmembers hle) hread
  case h_7 =>
    rename_i heq
    split at h
    · rename_i n r hscan
      cases h
      have hsome : rest ≠ [] := fun hnil => hends hnil n rfl
      rw [readValue, skipSpace_more more heq]
      simp only [scanNumber_more more hscan hsome]
    · cases h
  case h_8 =>
    split at h
    · rename_i n r hscan
      cases h
      have hsome : rest ≠ [] := fun hnil => hends hnil n rfl
      obtain ⟨c, hc, hdigit⟩ := head_scanNumber hscan
      obtain ⟨ds, hds⟩ := List.head?_eq_some_iff.1 hc
      have hmore := scanNumber_more more hscan hsome
      have hread : readValue (fuel' + 1) (c :: (ds ++ more)) = _ := readValue_digit hdigit
      have hdrop : skipSpace (skipSpace cs ++ more) = skipSpace cs ++ more := by
        rw [hds, List.cons_append, skipSpace_cons (isSpace_digit hdigit)]
      rw [← List.cons_append, ← hds, hmore] at hread
      rw [readValue, hdrop] at hread
      rw [readValue, skipSpace_more more hds, ← List.cons_append, ← hds, hread]
    · cases h

theorem Extends.items_succ {fuel' : Nat} {cs rest : List Char} {vs : List Raw}
    (h : readItems (fuel + 1) cs = (vs, some rest)) (hle : fuel ≤ fuel') :
    readItems (fuel' + 1) (cs ++ more) = (vs, some (rest ++ more)) := by
  rw [readItems] at h ⊢
  split at h
  · cases h
  · rename_i v left hvalue
    split at h
    · rename_i hspace
      cases h
      rw [hext.value hvalue (ends_of_head hspace) hle]
      simp only
      rw [skipSpace_more more hspace]
      rfl
    · rename_i tail hspace
      rcases hitems : readItems fuel tail with ⟨inner, after⟩
      rw [hitems] at h
      cases h
      rw [hext.value hvalue (ends_of_head hspace) hle]
      simp only
      rw [skipSpace_more more hspace]
      simp only [hext.items hitems hle]
    · cases h

theorem Extends.members_succ {fuel' : Nat} {cs rest : List Char} {ms : List (Option String × Raw)}
    (h : readMembers (fuel + 1) cs = (ms, some rest)) (hle : fuel ≤ fuel') :
    readMembers (fuel' + 1) (cs ++ more) = (ms, some (rest ++ more)) := by
  rw [readMembers] at h ⊢
  split at h
  · rename_i heq
    split at h
    · cases h
    · rename_i us left hscan
      simp only at h
      split at h
      · rename_i text hcolon
        rw [skipSpace_more more heq]
        simp only [scanString_more more hscan]
        rw [skipSpace_more more hcolon]
        split at h
        · cases h
        · rename_i v left' hvalue
          split at h
          · rename_i hspace
            cases h
            simp only [hext.value hvalue (ends_of_head hspace) hle]
            rw [skipSpace_more more hspace]
            rfl
          · rename_i tail hspace
            rcases hmembers : readMembers fuel tail with ⟨inner, after⟩
            rw [hmembers] at h
            cases h
            simp only [hext.value hvalue (ends_of_head hspace) hle]
            rw [skipSpace_more more hspace]
            simp only [hext.members hmembers hle]
          · cases h
      · cases h
  · cases h
end

theorem extends_all (fuel : Nat) : Extends more fuel := by
  induction fuel with
  | zero => exact ⟨nofun, nofun, nofun⟩
  | succ fuel ih =>
    refine ⟨?_, ?_, ?_⟩
    · intro fuel' cs rest v h hends hle
      obtain ⟨fuel', rfl⟩ := Nat.exists_eq_add_of_le' (Nat.le_trans (Nat.le_add_left 1 _) hle)
      exact ih.value_succ h hends (Nat.le_of_succ_le_succ hle)
    · intro fuel' cs rest vs h hle
      obtain ⟨fuel', rfl⟩ := Nat.exists_eq_add_of_le' (Nat.le_trans (Nat.le_add_left 1 _) hle)
      exact ih.items_succ h (Nat.le_of_succ_le_succ hle)
    · intro fuel' cs rest ms h hle
      obtain ⟨fuel', rfl⟩ := Nat.exists_eq_add_of_le' (Nat.le_trans (Nat.le_add_left 1 _) hle)
      exact ih.members_succ h (Nat.le_of_succ_le_succ hle)
end

/-! ### Where nothing is left something is broken -/

theorem Raw.items?_none_of_head {room : Nat} {v : Raw} (h : Raw.value? room v = none)
    (vs : List Raw) : Raw.items? room (v :: vs) = none := by
  rw [Raw.items?]
  split
  · rename_i hv _
    rw [h] at hv
    cases hv
  · rfl

theorem Raw.items?_none_of_tail {room : Nat} {vs : List Raw} (h : Raw.items? room vs = none)
    (v : Raw) : Raw.items? room (v :: vs) = none := by
  rw [Raw.items?]
  split
  · rename_i hvs
    rw [h] at hvs
    cases hvs
  · rfl

theorem Raw.pairs?_none_of_head {room : Nat} {v : Raw} (h : Raw.value? room v = none)
    (k : Option String) (ms : List (Option String × Raw)) : Raw.pairs? room ((k, v) :: ms) = none := by
  rw [Raw.pairs?]
  intro _ _ _ _ hv _
  rw [h] at hv
  cases hv

theorem Raw.pairs?_none_of_tail {room : Nat} {ms : List (Option String × Raw)}
    (h : Raw.pairs? room ms = none) (m : Option String × Raw) :
    Raw.pairs? room (m :: ms) = none := by
  rw [Raw.pairs?]
  intro _ _ _ _ _ hms
  rw [h] at hms
  cases hms

/-- What is read to no end with this much fuel is no value. -/
structure Breaks (fuel : Nat) : Prop where
  value {cs : List Char} {v : Raw} (h : readValue fuel cs = (v, none)) (room : Nat) :
    v.value? room = none
  items {cs : List Char} {vs : List Raw} (h : readItems fuel cs = (vs, none)) (room : Nat) :
    Raw.items? room vs = none
  members {cs : List Char} {ms : List (Option String × Raw)}
    (h : readMembers fuel cs = (ms, none)) (room : Nat) : Raw.pairs? room ms = none

theorem Raw.value?_arr_none {items : List Raw} (h : ∀ room, Raw.items? room items = none)
    (room : Nat) : Raw.value? room (.arr items) = none := by
  cases room with
  | zero => rw [Raw.value?]
  | succ room => rw [Raw.value?, h, Option.map_none]

theorem Raw.value?_obj_none {members : List (Option String × Raw)}
    (h : ∀ room, Raw.pairs? room members = none) (room : Nat) :
    Raw.value? room (.obj members) = none := by
  cases room with
  | zero => rw [Raw.value?]
  | succ room => rw [Raw.value?, h, Option.map_none]

theorem Raw.value?_broken (room : Nat) : Raw.value? room .broken = none := by
  cases room <;> rw [Raw.value?]

section
variable {fuel : Nat} (hbreaks : Breaks fuel)
include hbreaks

theorem Breaks.value_succ {cs : List Char} {v : Raw} (h : readValue (fuel + 1) cs = (v, none))
    (room : Nat) : v.value? room = none := by
  have hread := h
  rw [readValue] at h
  split at h
  case h_1 | h_2 | h_3 => cases h
  case h_4 | h_7 | h_8 =>
    split at h
    · cases h
    · cases h
      exact Raw.value?_broken room
  case h_5 =>
    rename_i heq
    rw [readValue_bracket heq] at hread
    obtain ⟨cs, items, hitems, rfl⟩ := inside_broken hread
    exact Raw.value?_arr_none (hbreaks.items hitems) room
  case h_6 =>
    rename_i heq
    rw [readValue_brace heq] at hread
    obtain ⟨cs, members, hmembers, rfl⟩ := inside_broken hread
    exact Raw.value?_obj_none (hbreaks.members hmembers) room

theorem Breaks.items_succ {cs : List Char} {vs : List Raw}
    (h : readItems (fuel + 1) cs = (vs, none)) (room : Nat) : Raw.items? room vs = none := by
  rw [readItems] at h
  split at h
  · rename_i hvalue
    cases h
    exact Raw.items?_none_of_head (hbreaks.value hvalue room) _
  · rename_i v left hvalue
    split at h
    · cases h
    · rename_i tail hspace
      rcases hitems : readItems fuel tail with ⟨inner, after⟩
      rw [hitems] at h
      cases h
      exact Raw.items?_none_of_tail (hbreaks.items hitems room) _
    · cases h
      exact Raw.items?_none_of_tail (Raw.items?_none_of_head (Raw.value?_broken room) _) _

theorem Breaks.members_succ {cs : List Char} {ms : List (Option String × Raw)}
    (h : readMembers (fuel + 1) cs = (ms, none)) (room : Nat) : Raw.pairs? room ms = none := by
  have hbroken (k : Option String) := Raw.pairs?_none_of_head (Raw.value?_broken room) k []
  rw [readMembers] at h
  split at h
  · split at h
    · cases h
      exact hbroken _
    · simp only at h
      split at h
      · split at h
        · rename_i hvalue
          cases h
          exact Raw.pairs?_none_of_head (hbreaks.value hvalue room) _ _
        · split at h
          · cases h
          · rename_i tail hspace
            rcases hmembers : readMembers fuel tail with ⟨inner, after⟩
            rw [hmembers] at h
            cases h
            exact Raw.pairs?_none_of_tail (hbreaks.members hmembers room) _
          · cases h
            exact Raw.pairs?_none_of_tail (hbroken _) _
      · cases h
        exact hbroken _
  · cases h
    exact hbroken _
end

theorem breaks_all (fuel : Nat) : Breaks fuel := by
  induction fuel with
  | zero =>
    refine ⟨?_, ?_, ?_⟩
    · rintro cs v ⟨⟩ room
      exact Raw.value?_broken room
    · rintro cs vs ⟨⟩ room
      exact Raw.items?_none_of_head (Raw.value?_broken room) _
    · rintro cs ms ⟨⟩ room
      exact Raw.pairs?_none_of_head (Raw.value?_broken room) _ _
  | succ fuel ih => exact ⟨ih.value_succ, ih.items_succ, ih.members_succ⟩

/-- A text that breaks off before the end of an object is neither an object nor an array. -/
theorem value?_ofChars_prefix {members : List (String × Json)} {front back : List Char}
    (h : chars (.obj members) = front ++ back) (hback : back ≠ []) (room : Nat)
    (hshape : ∀ n, Raw.ofChars front ≠ .num n) :
    (Raw.ofChars front).value? room = none := by
  rcases hread : Raw.first front with ⟨v, left⟩
  simp only [Raw.ofChars, hread] at hshape ⊢
  cases left with
  | none => exact (breaks_all _).value hread room
  | some rest =>
    simp only at hshape ⊢
    split
    · rename_i hspace
      rw [if_pos hspace] at hshape
      have hwhole : readValue (2 * (front ++ back).length + 2) (front ++ back) =
          (v, some (rest ++ back)) :=
        (extends_all back _).value hread (fun _ => hshape) (by simp)
      rw [← h] at hwhole
      have hobj : readValue (2 * (chars (.obj members)).length + 2) (chars (.obj members) ++ []) = _ :=
        readValue_chars (.obj members) (fun _ hnone => by cases hnone) (by omega)
      rw [List.append_nil, hwhole] at hobj
      have hnil : rest ++ back = [] := Option.some.inj (Prod.mk.inj hobj).2
      exact absurd (List.append_eq_nil_iff.1 hnil).2 hback
    · exact Raw.value?_broken room

end TierCache.Json
