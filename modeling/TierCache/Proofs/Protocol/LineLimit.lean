import TierCache.Proofs.Protocol.Line

/-!
The limit on the length of lines. A line that is ended is read whole if what is in front of its end is
within the limit, and refused if not. The last line of a stream may lack its end; for it, the room that
is left for a carriage return counts as well, so it is read with one byte more than the limit.
-/
namespace TierCache
namespace LineRead

/-- A stream as lines, each ended by a line feed or by a carriage return and a line feed, and what is
behind the last end. -/
inductive Lines : List UInt8 → (texts : List (List UInt8)) → (tail : List UInt8) → Prop
  | tail {tail : List UInt8} (h : lineFeed ∉ tail) : Lines tail [] tail
  | fed {text stream tail : List UInt8} {texts : List (List UInt8)} (h : lineFeed ∉ text)
      (hlast : text.getLast? ≠ some carriageReturn) (rest : Lines stream texts tail) :
      Lines (text ++ lineFeed :: stream) (text :: texts) tail
  | returned {text stream tail : List UInt8} {texts : List (List UInt8)} (h : lineFeed ∉ text)
      (rest : Lines stream texts tail) :
      Lines (text ++ carriageReturn :: lineFeed :: stream) (text :: texts) tail

/-- Every stream is made up of lines. -/
theorem Lines.exist (stream : List UInt8) : ∃ texts tail, Lines stream texts tail := by
  induction hn : stream.length using Nat.strongRecOn generalizing stream with
  | ind n ih =>
    by_cases hfeed : lineFeed ∈ stream
    · obtain ⟨line, after, rfl, hline⟩ := List.eq_append_cons_of_mem hfeed
      have hless : after.length < n := by
        rw [← hn, List.length_append, List.length_cons]
        omega
      obtain ⟨texts, tail, hrest⟩ := ih _ hless after rfl
      by_cases hlast : line.getLast? = some carriageReturn
      · obtain ⟨text, rfl⟩ := List.getLast?_eq_some_iff.mp hlast
        rw [List.mem_append, not_or] at hline
        rw [List.append_assoc, List.singleton_append]
        exact ⟨_, tail, .returned hline.1 hrest⟩
      · exact ⟨_, tail, .fed hline hlast hrest⟩
    · exact ⟨[], stream, .tail hfeed⟩

/-- What is read of what is behind the last end. -/
def ofTail (max : Nat) (tail : List UInt8) : List LineRead :=
  if tail = [] then [.ended] else if max + 1 < tail.length then [.tooLong] else [.line tail, .ended]

/-- What is read of lines that are ended and what is behind them: each line up to the first one that is
longer than the limit. -/
def ofLines (max : Nat) (texts : List (List UInt8)) (tail : List UInt8) : List LineRead :=
  (texts.takeWhile (·.length ≤ max)).map .line ++
    if texts.all (·.length ≤ max) then ofTail max tail else [.tooLong]

variable {max : Nat}

theorem ofLines_within {text : List UInt8} (h : text.length ≤ max) (texts : List (List UInt8))
    (tail : List UInt8) : ofLines max (text :: texts) tail = .line text :: ofLines max texts tail := by
  have hwithin : decide (text.length ≤ max) = true := decide_eq_true h
  rw [ofLines, ofLines, List.takeWhile_cons, if_pos hwithin, List.all_cons, hwithin, Bool.true_and,
    List.map_cons, List.cons_append]

theorem ofLines_beyond {text : List UInt8} (h : max < text.length) (texts : List (List UInt8))
    (tail : List UInt8) : ofLines max (text :: texts) tail = [.tooLong] := by
  have hbeyond : decide (text.length ≤ max) = false := decide_eq_false (Nat.not_le.mpr h)
  rw [ofLines, List.takeWhile_cons, hbeyond, List.all_cons, hbeyond]
  rfl

/-- Only the last line can be longer than the limit, by one byte, and only if it is not ended. -/
theorem length_of_mem_ofLines {texts : List (List UInt8)} {tail bytes : List UInt8}
    (h : .line bytes ∈ ofLines max texts tail) :
    bytes ∈ texts ∧ bytes.length ≤ max ∨ bytes = tail ∧ bytes.length ≤ max + 1 := by
  rw [ofLines, List.mem_append] at h
  obtain hended | hlast := h
  · obtain ⟨text, htext, ⟨⟩⟩ := List.mem_map.mp hended
    have hwithin := List.mem_takeWhile_imp (p := fun text : List UInt8 => decide (text.length ≤ max)) htext
    exact .inl ⟨(List.takeWhile_sublist _).subset htext, of_decide_eq_true hwithin⟩
  · split at hlast
    · unfold ofTail at hlast
      split at hlast
      · cases List.mem_singleton.mp hlast
      · split at hlast
        · cases List.mem_singleton.mp hlast
        · rename_i hshort
          obtain heq | hnone := List.mem_cons.mp hlast
          · cases heq
            exact .inr ⟨rfl, Nat.not_lt.mp hshort⟩
          · cases List.mem_singleton.mp hnone
    · cases List.mem_singleton.mp hlast

/-! ### Reading all lines -/

section
variable {pieces : List (List UInt8)} (h : [] ∉ pieces)
include h

/-- With nothing held back, what is read is what the stream begins with. -/
theorem next_of_ofStream {read : LineRead} {rest : List UInt8}
    (hstream : ofStream max pieces.flatten = (read, rest)) :
    (next max [] pieces).1 = read ∧ ∀ bytes, read = .line bytes →
      (next max [] pieces).2.flatten = rest ∧ [] ∉ (next max [] pieces).2 := by
  have heq := next_eq List.not_mem_nil (Nat.zero_le (max + 1)) h
  rw [List.nil_append, hstream] at heq
  exact ⟨heq.1, fun bytes hbytes => heq.2 bytes (heq.1.trans hbytes)⟩

/-- After a line the rest of the stream is read on, in whatever pieces it is left. -/
theorem readAll_ofStream {bytes rest : List UInt8}
    (hstream : ofStream max pieces.flatten = (.line bytes, rest)) :
    ∃ left, [] ∉ left ∧ left.flatten = rest ∧
      readAll max pieces = .line bytes :: readAll max left := by
  obtain ⟨hread, hleft⟩ := next_of_ofStream h hstream
  obtain ⟨hflatten, hsome⟩ := hleft bytes rfl
  exact ⟨_, hsome, hflatten, readAll_line (Prod.ext hread rfl)⟩

theorem readAll_refused {rest : List UInt8}
    (hstream : ofStream max pieces.flatten = (.tooLong, rest)) : readAll max pieces = [.tooLong] := by
  obtain ⟨hread, -⟩ := next_of_ofStream h hstream
  rw [readAll_last (by rw [hread]; nofun), hread]

theorem readAll_ended (hstream : pieces.flatten = []) : readAll max pieces = [.ended] := by
  have hempty : ofStream max pieces.flatten = (.ended, []) := by
    rw [hstream]
    rfl
  obtain ⟨hread, -⟩ := next_of_ofStream h hempty
  rw [readAll_last (by rw [hread]; nofun), hread]

end

/-- What is read of a stream are its lines, each whole, as far as they are within the limit. -/
theorem readAll_eq {stream tail : List UInt8} {texts : List (List UInt8)}
    (hlines : Lines stream texts tail) {pieces : List (List UInt8)} (h : [] ∉ pieces)
    (hpieces : pieces.flatten = stream) : readAll max pieces = ofLines max texts tail := by
  induction hlines generalizing pieces with
  | @tail tail hopen =>
    have hstream := ofStream_open max hopen
    rw [ofLines, List.takeWhile_nil, List.all_nil, if_pos rfl, ofTail, List.map_nil, List.nil_append]
    rw [← hpieces] at hstream ⊢
    split at hstream
    · rename_i hnil
      rw [if_pos hnil, readAll_ended h hnil]
    · rename_i hsome
      rw [if_neg hsome]
      split at hstream
      · rename_i hlong
        rw [if_pos hlong, readAll_refused h hstream]
      · rename_i hshort
        obtain ⟨left, hleft, hnil, hread⟩ := readAll_ofStream h hstream
        rw [if_neg hshort, hread, readAll_ended hleft hnil]
  | @fed text stream tail texts hopen hlast hrest ih =>
    have hstream := ofStream_closed max hopen stream
    rw [dropReturn, if_neg hlast, ← hpieces] at hstream
    split at hstream
    · rename_i hlong
      rw [ofLines_beyond hlong, readAll_refused h hstream]
    · rename_i hshort
      obtain ⟨left, hleft, hflatten, hread⟩ := readAll_ofStream h hstream
      rw [ofLines_within (Nat.not_lt.mp hshort), hread, ih hleft hflatten]
  | @returned text stream tail texts hopen hrest ih =>
    have hline : lineFeed ∉ text ++ [carriageReturn] := by
      rw [List.mem_append, not_or]
      exact ⟨hopen, by decide⟩
    have hstream := ofStream_closed max hline stream
    rw [dropReturn, if_pos List.getLast?_concat, List.dropLast_concat, List.append_assoc,
      List.singleton_append, ← hpieces] at hstream
    split at hstream
    · rename_i hlong
      rw [ofLines_beyond hlong, readAll_refused h hstream]
    · rename_i hshort
      obtain ⟨left, hleft, hflatten, hread⟩ := readAll_ofStream h hstream
      rw [ofLines_within (Nat.not_lt.mp hshort), hread, ih hleft hflatten]

end LineRead

/-! ### Connections -/

namespace Connection

/-- Whatever the pieces of a stream, its lines are read whole, without their ends, up to the first that is
longer than the limit, and what is read is what is carried out. A line that is ended is within the limit
when it is read; what is behind the last end may have one byte more. -/
theorem serve_limited (max : Nat) {pieces : List (List UInt8)} (h : [] ∉ pieces) :
    (∃ texts tail, LineRead.Lines pieces.flatten texts tail) ∧
    ∀ texts tail, LineRead.Lines pieces.flatten texts tail →
      LineRead.readAll max pieces = LineRead.ofLines max texts tail ∧
      (∀ bytes, .line bytes ∈ LineRead.readAll max pieces →
        bytes ∈ texts ∧ bytes.length ≤ max ∨ bytes = tail ∧ bytes.length ≤ max + 1) ∧
      ∀ {σ : Type} [Store σ] (clock : Clock) (i : Instance σ),
        serve max clock i pieces =
          let (sent, i) := answer clock .fresh i (LineRead.ofLines max texts tail)
          (String.join sent, i) := by
  refine ⟨LineRead.Lines.exist _, fun texts tail hlines => ?_⟩
  have hread : LineRead.readAll max pieces = LineRead.ofLines max texts tail :=
    LineRead.readAll_eq hlines h rfl
  refine ⟨hread, fun bytes hbytes => ?_, fun clock i => ?_⟩
  · rw [hread] at hbytes
    exact LineRead.length_of_mem_ofLines hbytes
  · unfold serve
    dsimp only
    rw [serveWithin_eq max clock (by omega), hread]

/-- A line at the limit whose carriage return comes in another piece than its line feed, and a last line
of one byte more. -/
theorem serve_limited_unended :
    let pieces : List (List UInt8) := [[71, 69, 84, 13], [10, 65, 66], [67, 68]]
    [] ∉ pieces ∧ LineRead.Lines pieces.flatten [[71, 69, 84]] [65, 66, 67, 68] ∧
      LineRead.readAll 3 pieces = [.line [71, 69, 84], .line [65, 66, 67, 68], .ended] := by
  intro pieces
  have hpieces : [] ∉ pieces := by decide
  have hopen : LineRead.lineFeed ∉ ([71, 69, 84] : List UInt8) := by decide
  have hlines : LineRead.Lines pieces.flatten [[71, 69, 84]] [65, 66, 67, 68] :=
    .returned hopen (.tail (by decide))
  exact ⟨hpieces, hlines, ((serve_limited 3 hpieces).2 _ _ hlines).1⟩

/-- A command of seven bytes is carried out although the limit is six. -/
theorem serve_beyond_limit :
    let line : List UInt8 := [69, 67, 72, 79, 32, 97, 98]
    let node := Instance.start (.fresh Table.empty 1 "main") (.standalone "one") true true ⟨0, 0⟩
    LineRead.readAll 6 [line] = [.line line, .ended] ∧ 6 < line.length ∧
      (serve 6 ⟨5, 5⟩ node [line]).1 = "$2\r\nab\r\n" := by
  intro line node
  have hline : LineRead.next 6 [] [line] = (.line line, []) := by decide
  have hend : LineRead.next 6 [] [] = (.ended, []) := rfl
  refine ⟨?_, by decide, by decide +kernel⟩
  rw [LineRead.readAll_line hline, LineRead.readAll_last (by rw [hend]; nofun), hend]

end Connection
end TierCache
