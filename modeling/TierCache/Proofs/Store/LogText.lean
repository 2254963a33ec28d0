import TierCache.Proofs.Store.Record

/-!
The text of a log: the lines of its records one after another, the last of which may be cut short.
What is read from such a text are the records whose whole line is in it.
-/
namespace TierCache
open Std

namespace Text

/-- The text is empty or its last line has its end. -/
def Ended (cs : List Char) : Prop := ∀ c ∈ cs.getLast?, c = '\n'

theorem ended_nil : Ended [] := nofun

theorem ended_snoc (cs : List Char) : Ended (cs ++ ['\n']) := by
  intro c hc
  rw [List.getLast?_concat] at hc
  exact (Option.some.inj hc).symm

theorem Ended.append {cs ds : List Char} (hcs : Ended cs) (hds : Ended ds) : Ended (cs ++ ds) := by
  intro c hc
  rw [List.getLast?_append] at hc
  cases hlast : ds.getLast? with
  | none => exact hcs c (by rwa [hlast, Option.none_or] at hc)
  | some d =>
    rw [hlast, Option.some_or] at hc
    exact hds c (hlast.trans hc)

theorem Ended.cases {cs : List Char} (h : Ended cs) : cs = [] ∨ ∃ ds, cs = ds ++ ['\n'] := by
  cases hlast : cs.getLast? with
  | none => exact .inl (List.getLast?_eq_none_iff.1 hlast)
  | some c =>
    obtain ⟨ds, rfl⟩ := List.getLast?_eq_some_iff.1 hlast
    exact .inr ⟨ds, by rw [h c hlast]⟩

theorem linesFrom_append (line cs ds : List Char) :
    linesFrom line (cs ++ '\n' :: ds) = linesFrom line (cs ++ ['\n']) ++ linesFrom [] ds := by
  induction cs generalizing line with
  | nil => rfl
  | cons c cs ih =>
    by_cases hc : c = '\n'
    · subst hc
      simp only [List.cons_append, linesFrom, ih]
    · simp only [List.cons_append]
      rw [linesFrom, linesFrom, ih]
      · exact hc
      · exact hc

/-- Where a line ends the next one begins. -/
theorem lines_append {cs : List Char} (h : Ended cs) (ds : List Char) :
    lines (cs ++ ds) = lines cs ++ lines ds := by
  obtain rfl | ⟨front, rfl⟩ := h.cases
  · rfl
  · rw [List.append_assoc, List.singleton_append]
    exact linesFrom_append [] front ds

theorem linesFrom_plain (line : List Char) {cs : List Char} (h : '\n' ∉ cs) (rest : List Char) :
    linesFrom line (cs ++ rest) = linesFrom (cs.reverse ++ line) rest := by
  induction cs generalizing line with
  | nil => rfl
  | cons c cs ih =>
    rw [List.mem_cons, not_or] at h
    obtain ⟨hc, hcs⟩ := h
    rw [List.cons_append, linesFrom, ih _ hcs, List.reverse_cons, List.append_assoc,
      List.singleton_append]
    exact Ne.symm hc

theorem dropReturn_of_not_mem {line : List Char} (h : '\r' ∉ line) : dropReturn line = line := by
  rw [dropReturn]
  split
  · rename_i back heq
    exact absurd (List.mem_reverse.1 (heq ▸ List.mem_cons_self)) h
  · rfl

section
variable {cs : List Char} (h : Json.Plain cs)
include h

/-- A line without its end is the line, unless it is empty. -/
theorem lines_open : lines cs = if cs = [] then [] else [cs] := by
  have hscan := linesFrom_plain [] (h.not_mem (c := '\n') (by decide)) []
  rw [List.append_nil, List.append_nil] at hscan
  rw [lines, hscan, linesFrom, List.reverse_reverse]
  simp only [List.reverse_eq_nil_iff]

theorem lines_closed : lines (cs ++ ['\n']) = [cs] := by
  have hscan := linesFrom_plain [] (h.not_mem (c := '\n') (by decide)) ['\n']
  rw [List.append_nil] at hscan
  rw [lines, hscan, linesFrom, List.reverse_reverse,
    dropReturn_of_not_mem (h.not_mem (c := '\r') (by decide))]
  rfl

end
end Text

namespace LogRecord

/-- The text of a file that holds the records. -/
def textOf (rs : List LogRecord) : List Char := rs.flatMap fun r => r.text ++ ['\n']

/-- The number of bytes in the line of a record, without its end. -/
def size (r : LogRecord) : Nat := r.toJson.render.utf8ByteSize

/-- Those of the records whose whole line, but for its end, lies in the first `n` bytes of the file
that holds them all. -/
def within : Nat → List LogRecord → List LogRecord
  | _, [] => []
  | n, r :: rs => if r.size ≤ n then r :: within (n - (r.size + 1)) rs else []

theorem size_eq (r : LogRecord) : r.size = r.text.utf8Encode.size := by
  rw [size, Json.render, text, String.utf8ByteSize, String.toByteArray_ofList]

theorem size_pos {cs : List Char} (h : cs ≠ []) : 0 < cs.utf8Encode.size := by
  obtain ⟨c, cs, rfl⟩ := List.exists_cons_of_ne_nil h
  have hc := Char.utf8Size_pos c
  rw [List.utf8Encode_cons, ByteArray.size_append, List.utf8Encode_singleton,
    List.size_toByteArray, String.length_utf8EncodeChar]
  omega

theorem plain_text (r : LogRecord) : Json.Plain r.text := Json.plain_chars _

theorem text_ne_nil (r : LogRecord) : r.text ≠ [] := by
  cases r <;> exact List.cons_ne_nil _ _

theorem ended_textOf (rs : List LogRecord) : Text.Ended (textOf rs) := by
  induction rs with
  | nil => exact Text.ended_nil
  | cons r rs ih => exact (Text.ended_snoc r.text).append ih

theorem textOf_append (rs others : List LogRecord) :
    textOf (rs ++ others) = textOf rs ++ textOf others := List.flatMap_append

/-! ### Records of a text -/

theorem ofText_append {cs : List Char} (h : Text.Ended cs) (ds : List Char) :
    ofText (cs ++ ds) = ofText cs ++ ofText ds := by
  simp only [ofText, Text.lines_append h, List.filter_append, List.filterMap_append]

section
variable {r : LogRecord} {line back : List Char} (h : r.text = line ++ back)
include h

theorem plain_front : Json.Plain line :=
  (plain_text r).of_sublist (h ▸ List.sublist_append_left line back)

theorem isBlankLine_front (hsome : line ≠ []) : Text.isBlankLine line = false := by
  obtain ⟨c, cs, rfl⟩ := List.exists_cons_of_ne_nil hsome
  have hbrace : c = '{' := by
    cases r <;> exact (List.cons.inj h).1.symm
  subst hbrace
  rfl

theorem ofLine?_front_nil (hnil : line = []) : ofLine? line = none := by
  apply ofLine?_torn h
  rintro rfl
  exact text_ne_nil r (by rw [h, hnil]; rfl)

/-- A line that begins a record, without its end. -/
theorem ofText_open : ofText line = (ofLine? line).toList := by
  rw [ofText, Text.lines_open (plain_front h)]
  by_cases hnil : line = []
  · rw [if_pos hnil, ofLine?_front_nil h hnil]
    rfl
  · rw [if_neg hnil]
    simp only [List.filter_cons, isBlankLine_front h hnil, List.filter_nil]
    cases hline : ofLine? line <;> simp [hline]

theorem ofText_closed : ofText (line ++ ['
']) = (ofLine? line).toList := by
  rw [ofText, Text.lines_closed (plain_front h)]
  by_cases hnil : line = []
  · rw [ofLine?_front_nil h hnil]
    subst hnil
    rfl
  · simp only [List.filter_cons, isBlankLine_front h hnil, List.filter_nil]
    cases hline : ofLine? line <;> simp [hline]

end

theorem ofText_text {r : LogRecord} (h : r.Storable) : ofText (r.text ++ ['
']) = [r] := by
  rw [ofText_closed (List.append_nil _).symm, ofLine?_text h]
  rfl

/-- A file that holds storable records is read as these. -/
theorem ofText_textOf {rs : List LogRecord} (h : ∀ r ∈ rs, r.Storable) : ofText (textOf rs) = rs := by
  induction rs with
  | nil => rfl
  | cons r rs ih =>
    rw [List.forall_mem_cons] at h
    rw [textOf, List.flatMap_cons, ofText_append (Text.ended_snoc r.text), ofText_text h.1]
    exact congrArg (r :: ·) (ih h.2)

/-! ### Cuts -/

theorem within_zero (rs : List LogRecord) : within 0 rs = [] := by
  cases rs with
  | nil => rfl
  | cons r rs =>
    have hpos := size_pos (text_ne_nil r)
    rw [← size_eq] at hpos
    rw [within, if_neg (by omega)]

theorem mem_of_mem_within {n : Nat} {rs : List LogRecord} {r : LogRecord} (h : r ∈ within n rs) :
    r ∈ rs := by
  induction rs generalizing n with
  | nil => exact h
  | cons first rs ih =>
    rw [within] at h
    split at h
    · obtain rfl | h := List.mem_cons.1 h
      · exact List.mem_cons_self
      · exact List.mem_cons_of_mem _ (ih h)
    · exact absurd h List.not_mem_nil

/-- A cut of a file of records falls behind the first line or leaves a part of it. -/
theorem cut_first {r : LogRecord} {rs : List LogRecord} {front back : List Char}
    (h : front ++ back = textOf (r :: rs)) :
    (∃ more, front = r.text ++ ['\n'] ++ more ∧ more ++ back = textOf rs) ∨
      ∃ left, r.text = front ++ left := by
  have hcut : front ++ back = (r.text ++ ['\n']) ++ textOf rs := h
  obtain ⟨as, hline, hback⟩ | ⟨bs, hfront, hrest⟩ := List.append_eq_append_iff.1 hcut
  · obtain rfl | ⟨left, c, rfl⟩ := List.eq_nil_or_concat as
    · exact .inl ⟨[], by rw [hline]; simp, hback⟩
    · rw [List.concat_eq_append, ← List.append_assoc] at hline
      exact .inr ⟨left, (List.append_inj' hline rfl).1⟩
  · exact .inl ⟨bs, hfront, hrest.symm⟩

/-- Of a line that breaks off nothing is read, and of a line that only lacks its end its record. -/
theorem ofLine?_front {r : LogRecord} (hr : r.Storable) (rs : List LogRecord)
    {line left : List Char} (h : r.text = line ++ left) :
    (ofLine? line).toList = within line.utf8Encode.size (r :: rs) := by
  have hsize : r.size = line.utf8Encode.size + left.utf8Encode.size := by
    rw [size_eq, h, List.utf8Encode_append, ByteArray.size_append]
  by_cases hleft : left = []
  · subst hleft
    rw [List.append_nil] at h
    subst h
    rw [ofLine?_text hr, within, if_pos (size_eq r).le, ← size_eq, Nat.sub_eq_zero_of_le (by omega),
      within_zero]
    rfl
  · have hpos := size_pos hleft
    rw [ofLine?_torn h hleft, within, if_neg (by omega)]
    rfl

/-- What is read of a file of records that was cut are the records whose line lies in what is left,
with and without an end for the last line. -/
theorem ofText_cut {rs : List LogRecord} (h : ∀ r ∈ rs, r.Storable) {front back : List Char}
    (hcut : front ++ back = textOf rs) :
    ofText front = within front.utf8Encode.size rs ∧
      (¬ Text.Ended front → ofText (front ++ ['\n']) = within front.utf8Encode.size rs) := by
  induction rs generalizing front with
  | nil =>
    obtain ⟨rfl, -⟩ := List.append_eq_nil_iff.1 hcut
    exact ⟨rfl, fun hopen => absurd Text.ended_nil hopen⟩
  | cons r rs ih =>
    rw [List.forall_mem_cons] at h
    obtain ⟨more, rfl, hmore⟩ | ⟨left, hleft⟩ := cut_first hcut
    · have hended := Text.ended_snoc r.text
      have hend : ['\n'].utf8Encode.size = 1 := rfl
      have hsize : (r.text ++ ['\n'] ++ more).utf8Encode.size =
          more.utf8Encode.size + (r.size + 1) := by
        rw [List.utf8Encode_append, List.utf8Encode_append, ByteArray.size_append,
          ByteArray.size_append, hend, ← size_eq]
        omega
      obtain ⟨hread, hclosed⟩ := ih h.2 hmore
      rw [hsize, within, if_pos (by omega), Nat.add_sub_cancel, ofText_append hended, hread,
        ofText_text h.1]
      refine ⟨rfl, fun hopen => ?_⟩
      rw [List.append_assoc _ more, ofText_append hended, ofText_text h.1,
        hclosed fun hmore => hopen (hended.append hmore)]
      rfl
    · rw [ofText_open hleft, ofText_closed hleft, ofLine?_front h.1 rs hleft]
      exact ⟨rfl, fun _ => rfl⟩

end LogRecord
end TierCache
