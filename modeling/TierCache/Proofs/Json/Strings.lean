import TierCache.Json.Raw

/-!
Quoted strings read back: what an escape writes is one unit of the string, and the units spell the
string that was written.
-/
namespace TierCache.Json

/-- The unit stands for the character alone, whatever follows it: a surrogate never does. -/
def Unit16.Spells (u : Unit16) (c : Char) : Prop :=
  u = .char c ∨ u = .code c.toNat ∧ c.toNat < 0x20

theorem joinUnits_cons {u : Unit16} {c : Char} (h : u.Spells c) (us : List Unit16) :
    joinUnits (u :: us) = (joinUnits us).map (c :: ·) := by
  obtain rfl | ⟨rfl, hsmall⟩ := h
  · rfl
  · have hhigh : ¬ (0xD800 ≤ c.toNat ∧ c.toNat < 0xDC00) := by omega
    have hlow : ¬ (0xDC00 ≤ c.toNat ∧ c.toNat < 0xE000) := by omega
    have hnone : ¬ (0xD800 ≤ c.toNat ∧ c.toNat < 0xE000) := by omega
    match us with
    | [] => simp only [joinUnits, hnone, if_false, Char.ofNat_toNat]
    | .char d :: us => simp only [joinUnits, hnone, if_false, Char.ofNat_toNat]
    | .code m :: us => simp only [joinUnits, hhigh, hlow, if_false, Char.ofNat_toNat]

/-- Control characters are written with two digits, the first two of the four being zero. -/
theorem hex4?_control : ∀ n < 0x20, hex4? '0' '0' (hexDigit (n / 16)) (hexDigit (n % 16)) = some n := by
  decide

theorem escape_control {c : Char} (h : c.toNat < 0x20) :
    (∃ e, escape c = ['\\', e] ∧ e ≠ 'u' ∧ shortEscape? e = some c) ∨
      escape c = ['\\', 'u', '0', '0', hexDigit (c.toNat / 16), hexDigit (c.toNat % 16)] := by
  have hof := Char.ofNat_toNat c
  unfold escape
  split
  · subst c
    simp at h
  · split
    · subst c
      simp at h
    · split
      all_goals first
        | (rename_i heq; rw [heq] at hof; subst hof; left; exact ⟨_, rfl, by decide, by decide⟩)
        | exact .inr rfl

/-- An escape is read as one unit, and what follows is left to be read. -/
theorem scanString_escape (c : Char) (rest : List Char) :
    ∃ u : Unit16, u.Spells c ∧
      scanString (escape c ++ rest) = (scanString rest).map fun (us, r) => (u :: us, r) := by
  by_cases hsmall : c.toNat < 0x20
  · obtain ⟨e, hescape, hu, hshort⟩ | hescape := escape_control hsmall
    · refine ⟨.char c, .inl rfl, ?_⟩
      rw [hescape]
      simp [scanString, hu, hshort]
    · refine ⟨.code c.toNat, .inr ⟨rfl, hsmall⟩, ?_⟩
      rw [hescape]
      simp [scanString, hex4?_control c.toNat hsmall]
  · refine ⟨.char c, .inl rfl, ?_⟩
    unfold escape
    split
    · subst c
      rfl
    · split
      · subst c
        rfl
      · simp [scanString, *]

/-- A string is read up to its closing quote. -/
theorem scanString_escaped (cs rest : List Char) :
    ∃ us, scanString (cs.flatMap escape ++ '"' :: rest) = some (us, rest) ∧
      joinUnits us = some cs := by
  induction cs with
  | nil => exact ⟨[], rfl, rfl⟩
  | cons c cs ih =>
    obtain ⟨us, hscan, hjoin⟩ := ih
    obtain ⟨u, hspells, hfirst⟩ := scanString_escape c (cs.flatMap escape ++ '"' :: rest)
    refine ⟨u :: us, ?_, ?_⟩
    · rw [List.flatMap_cons, List.append_assoc, hfirst, hscan]
      rfl
    · rw [joinUnits_cons hspells, hjoin]
      rfl

end TierCache.Json
