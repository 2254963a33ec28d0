import Mathlib.Data.List.TakeWhile
import TierCache.Protocol.Connection
import TierCache.Store.Table

/-!
Lines read from a stream that comes in pieces. What is read depends on the stream alone, and so does
all that a connection answers: a piece may end inside a line or within its end.
-/
namespace TierCache
namespace LineRead

/-- Reads a line of at most `max` bytes from a stream that is there as a whole. Gives what is left
behind the line. -/
def ofStream (max : Nat) (stream : List UInt8) : LineRead × List UInt8 :=
  let line := stream.takeWhile (· ≠ lineFeed)
  match stream.dropWhile (· ≠ lineFeed) with
  | [] =>
    if stream = [] then (.ended, [])
    else if max + 1 < stream.length then (.tooLong, stream)
    else (.line stream, [])
  | _ :: after =>
    if max < (dropReturn line).length then (.tooLong, stream) else (.line (dropReturn line), after)

/-! ### Line feeds -/

section
variable {line : List UInt8} (h : lineFeed ∉ line)
include h

theorem not_lineFeed : ∀ b ∈ line, decide (b ≠ lineFeed) = true :=
  fun _ hb => decide_eq_true fun heq => h (heq ▸ hb)

theorem dropWhile_open : line.dropWhile (· ≠ lineFeed) = [] :=
  List.dropWhile_eq_nil_iff.2 (not_lineFeed h)

variable (after : List UInt8)

theorem takeWhile_closed : (line ++ lineFeed :: after).takeWhile (· ≠ lineFeed) = line := by
  rw [List.takeWhile_append_of_pos (not_lineFeed h), List.takeWhile_cons_of_neg (by simp),
    List.append_nil]

theorem dropWhile_closed :
    (line ++ lineFeed :: after).dropWhile (· ≠ lineFeed) = lineFeed :: after := by
  rw [List.dropWhile_append_of_pos (not_lineFeed h), List.dropWhile_cons_of_neg (by simp)]

end

theorem length_dropReturn (bytes : List UInt8) : (dropReturn bytes).length =
    bytes.length - if bytes.getLast? = some carriageReturn then 1 else 0 := by
  unfold dropReturn
  split
  · rw [List.length_dropLast]
  · rfl

/-! ### A stream as a whole -/

/-- A stream without a line feed is the last line, if there is anything in it. -/
theorem ofStream_open (max : Nat) {stream : List UInt8} (h : lineFeed ∉ stream) :
    ofStream max stream = if stream = [] then (.ended, [])
      else if max + 1 < stream.length then (.tooLong, stream) else (.line stream, []) := by
  simp only [ofStream, dropWhile_open h]

theorem ofStream_closed (max : Nat) {line : List UInt8} (h : lineFeed ∉ line)
    (after : List UInt8) : ofStream max (line ++ lineFeed :: after) =
      if max < (dropReturn line).length then (.tooLong, line ++ lineFeed :: after)
      else (.line (dropReturn line), after) := by
  simp only [ofStream, takeWhile_closed h, dropWhile_closed h]

/-- A line that is longer than the limit and a carriage return is refused, wherever it ends. -/
theorem ofStream_long {max : Nat} {front : List UInt8} (h : lineFeed ∉ front)
    (hlong : max + 1 < front.length) (rest : List UInt8) :
    ofStream max (front ++ rest) = (.tooLong, front ++ rest) := by
  by_cases hfeed : lineFeed ∈ rest
  · obtain ⟨more, after, rfl, hmore⟩ := List.eq_append_cons_of_mem hfeed
    have hline : lineFeed ∉ front ++ more := by
      rw [List.mem_append, not_or]
      exact ⟨h, hmore⟩
    have hlength : max < (dropReturn (front ++ more)).length := by
      rw [length_dropReturn, List.length_append]
      split <;> omega
    rw [← List.append_assoc, ofStream_closed max hline, if_pos hlength]
  · have hopen : lineFeed ∉ front ++ rest := by
      rw [List.mem_append, not_or]
      exact ⟨h, hfeed⟩
    have hlength : max + 1 < (front ++ rest).length := by
      rw [List.length_append]
      omega
    have hsome : front ++ rest ≠ [] := by
      rw [← List.length_pos_iff]
      omega
    rw [ofStream_open max hopen, if_neg hsome, if_pos hlength]

/-! ### A stream in pieces -/

section
variable (max : Nat) (held : List UInt8) (pieces : List (List UInt8))

/-- A piece without a line feed is kept until the line ends, unless there is too much of it. -/
theorem next_open {piece : List UInt8} (hsome : piece ≠ []) (h : lineFeed ∉ piece) :
    next max held (piece :: pieces) =
      if max + 1 < (held ++ piece).length then (.tooLong, piece :: pieces)
      else next max (held ++ piece) pieces := by
  rw [next, List.length_append]
  · simp only [dropWhile_open h]
  · exact hsome

/-- A line feed ends the line, and the limit is for the bytes in front of its end. -/
theorem next_closed {line : List UInt8} (h : lineFeed ∉ line) (after : List UInt8) :
    next max held ((line ++ lineFeed :: after) :: pieces) =
      if max < (dropReturn (held ++ line)).length then
        (.tooLong, (line ++ lineFeed :: after) :: pieces)
      else (.line (dropReturn (held ++ line)), if after = [] then pieces else after :: pieces) := by
  have hlast : (if line = [] then held.getLast? else line.getLast?) = (held ++ line).getLast? := by
    split
    · rename_i hnil
      rw [hnil, List.append_nil]
    · rename_i hsome
      obtain ⟨front, b, rfl⟩ := (List.eq_nil_or_concat line).resolve_left hsome
      rw [List.concat_eq_append, ← List.append_assoc, List.getLast?_concat, List.getLast?_concat]
  rw [next, length_dropReturn]
  · simp only [takeWhile_closed h, dropWhile_closed h, hlast, List.length_append]
  · exact List.append_ne_nil_of_right_ne_nil line (List.cons_ne_nil _ _)

/-- The rest of a piece is left with the pieces behind it, if there is a rest. -/
theorem flatten_rest (after : List UInt8) :
    (if after = [] then pieces else after :: pieces).flatten = after ++ pieces.flatten := by
  split
  · rename_i hafter
    rw [hafter, List.nil_append]
  · rw [List.flatten_cons]

end

/-- What is held back begins the line. How the rest of the stream is cut into pieces makes no
difference to what is read, nor to the stream that is left behind the line. -/
theorem next_eq {max : Nat} {held : List UInt8} (hheld : lineFeed ∉ held)
    (hroom : held.length ≤ max + 1) {pieces : List (List UInt8)} (h : [] ∉ pieces) :
    (next max held pieces).1 = (ofStream max (held ++ pieces.flatten)).1 ∧
      ∀ bytes, (next max held pieces).1 = .line bytes →
        (next max held pieces).2.flatten = (ofStream max (held ++ pieces.flatten)).2 ∧
          [] ∉ (next max held pieces).2 := by
  induction pieces generalizing held with
  | nil =>
    rw [next, List.flatten_nil, List.append_nil, ofStream_open max hheld, if_neg hroom.not_gt]
    split
    · exact ⟨rfl, nofun⟩
    · exact ⟨rfl, fun _ _ => ⟨rfl, List.not_mem_nil⟩⟩
  | cons piece pieces ih =>
    rw [List.mem_cons, not_or] at h
    obtain ⟨hpiece, hpieces⟩ := h
    rw [List.flatten_cons]
    by_cases hfeed : lineFeed ∈ piece
    · obtain ⟨line, after, rfl, hline⟩ := List.eq_append_cons_of_mem hfeed
      have hwhole : lineFeed ∉ held ++ line := by
        rw [List.mem_append, not_or]
        exact ⟨hheld, hline⟩
      have hstream : held ++ ((line ++ lineFeed :: after) ++ pieces.flatten) =
          (held ++ line) ++ lineFeed :: (after ++ pieces.flatten) := by simp
      rw [next_closed max held pieces hline, hstream, ofStream_closed max hwhole]
      split
      · exact ⟨rfl, nofun⟩
      · refine ⟨rfl, fun _ _ => ⟨flatten_rest pieces after, ?_⟩⟩
        dsimp only
        split
        · exact hpieces
        · rename_i hafter
          rw [List.mem_cons, not_or]
          exact ⟨Ne.symm hafter, hpieces⟩
    · have hopen : lineFeed ∉ held ++ piece := by
        rw [List.mem_append, not_or]
        exact ⟨hheld, hfeed⟩
      rw [next_open max held pieces (Ne.symm hpiece) hfeed, ← List.append_assoc]
      split
      · rename_i hlong
        rw [ofStream_long hopen hlong]
        exact ⟨rfl, nofun⟩
      · rename_i hshort
        exact ih hopen (Nat.not_lt.1 hshort) hpieces

/-- Each line takes something away from the stream. -/
theorem next_shorter {max : Nat} {held : List UInt8} {pieces rest : List (List UInt8)}
    {bytes : List UInt8} (h : next max held pieces = (.line bytes, rest)) :
    rest.flatten.length < held.length + pieces.flatten.length := by
  induction pieces generalizing held with
  | nil =>
    rw [next] at h
    split at h
    · cases h
    · rename_i hsome
      cases h
      exact Nat.lt_of_lt_of_le (List.length_pos_iff.2 hsome) (Nat.le_add_right _ _)
  | cons piece pieces ih =>
    by_cases hnil : piece = []
    · subst hnil
      rw [next] at h
      split at h
      · cases h
      · rename_i hsome
        cases h
        exact Nat.lt_add_of_pos_left (List.length_pos_iff.2 hsome)
    · rw [List.flatten_cons, List.length_append]
      by_cases hfeed : lineFeed ∈ piece
      · obtain ⟨line, after, rfl, hline⟩ := List.eq_append_cons_of_mem hfeed
        rw [next_closed max held pieces hline] at h
        split at h
        · cases h
        · cases h
          rw [flatten_rest, List.length_append, List.length_append, List.length_cons]
          omega
      · rw [next_open max held pieces hnil hfeed] at h
        split at h
        · cases h
        · have hless := ih h
          rw [List.length_append] at hless
          omega

/-! ### All lines -/

/-- The outcomes of reading one line after another, up to the end of the stream or the first line
that is too long. -/
def readAll (max : Nat) (pieces : List (List UInt8)) : List LineRead :=
  match h : next max [] pieces with
  | (.line bytes, rest) =>
    have := next_shorter h
    .line bytes :: readAll max rest
  | (outcome, _) => [outcome]
termination_by pieces.flatten.length
decreasing_by rwa [List.length_nil, Nat.zero_add] at this

theorem readAll_line {max : Nat} {pieces rest : List (List UInt8)} {bytes : List UInt8}
    (h : next max [] pieces = (.line bytes, rest)) :
    readAll max pieces = .line bytes :: readAll max rest := by
  rw [readAll]
  split
  · rename_i heq
    cases h.symm.trans heq
    rfl
  · rename_i hother heq
    exact absurd (congrArg Prod.fst (h.symm.trans heq)).symm (hother bytes)

theorem readAll_last {max : Nat} {pieces : List (List UInt8)}
    (h : ∀ bytes, (next max [] pieces).1 ≠ .line bytes) :
    readAll max pieces = [(next max [] pieces).1] := by
  rw [readAll]
  split
  · rename_i bytes rest heq
    exact absurd (congrArg Prod.fst heq) (h bytes)
  · rename_i heq
    rw [heq]

theorem readAll_cut (max : Nat) {ps qs : List (List UInt8)} (hps : [] ∉ ps) (hqs : [] ∉ qs)
    (h : ps.flatten = qs.flatten) : readAll max ps = readAll max qs := by
  -- by the length of the stream, for both sides go on with what the first line leaves of it
  induction hn : ps.flatten.length using Nat.strongRecOn generalizing ps qs with
  | ind n ih =>
    have hfeed : lineFeed ∉ ([] : List UInt8) := List.not_mem_nil
    obtain ⟨hp, hpRest⟩ := next_eq hfeed (Nat.zero_le (max + 1)) hps
    obtain ⟨hq, hqRest⟩ := next_eq hfeed (Nat.zero_le (max + 1)) hqs
    rw [List.nil_append, h] at hp hpRest
    rw [List.nil_append] at hq hqRest
    have hsame : (next max [] ps).1 = (next max [] qs).1 := hp.trans hq.symm
    by_cases hline : ∃ bytes, (next max [] ps).1 = .line bytes
    · obtain ⟨bytes, hbytes⟩ := hline
      obtain ⟨hpLeft, hpSome⟩ := hpRest bytes hbytes
      obtain ⟨hqLeft, hqSome⟩ := hqRest bytes (hsame ▸ hbytes)
      have hpNext : next max [] ps = (.line bytes, (next max [] ps).2) := Prod.ext hbytes rfl
      have hqNext : next max [] qs = (.line bytes, (next max [] qs).2) :=
        Prod.ext (hsame ▸ hbytes) rfl
      have hless := next_shorter hpNext
      rw [List.length_nil, Nat.zero_add, hn] at hless
      rw [readAll_line hpNext, readAll_line hqNext,
        ih _ hless hpSome hqSome (hpLeft.trans hqLeft.symm) rfl]
    · rw [not_exists] at hline
      rw [readAll_last hline, readAll_last (hsame ▸ hline), hsame]

end LineRead

/-! ### Connections -/

namespace Connection
variable {σ : Type} [Store σ]

/-- The texts sent for the outcomes of reading lines, up to the first that ends the connection. -/
def answer (clock : Clock) : Session → Instance σ → List LineRead → List String × Instance σ
  | s, i, .line bytes :: rest =>
    let (reply, s, i) := s.handleLine i clock (Text.decodeLossy bytes)
    let sent := (reply.map Reply.encode).toList
    if s.closing then (sent, i)
    else
      let (more, i) := answer clock s i rest
      (sent ++ more, i)
  | _, i, .tooLong :: _ => ([tooLong.encode], i)
  | _, i, .ended :: _ => ([], i)
  | _, i, [] => ([], i)

/-- A connection is served line by line to its end, whatever bounds the number of lines. -/
theorem serveWithin_eq (maxLine : Nat) (clock : Clock) {fuel : Nat} {s : Session} {i : Instance σ}
    {pieces : List (List UInt8)} (h : pieces.flatten.length < fuel) :
    serveWithin maxLine clock fuel s i pieces =
      answer clock s i (LineRead.readAll maxLine pieces) := by
  induction fuel generalizing s i pieces with
  | zero => exact absurd h (Nat.not_lt_zero _)
  | succ fuel ih =>
    rw [serveWithin]
    split
    · rename_i heq
      rw [LineRead.readAll_last (by rw [heq]; nofun), heq, answer]
    · rename_i heq
      rw [LineRead.readAll_last (by rw [heq]; nofun), heq, answer]
    · rename_i bytes rest heq
      have hless := LineRead.next_shorter heq
      rw [List.length_nil, Nat.zero_add] at hless
      rw [LineRead.readAll_line heq, answer]
      dsimp only
      rw [ih (by omega)]

/-- However a stream is cut into pieces, the same lines are read from it, up to its end or the first
line that is too long, and a connection answers the same. -/
theorem serve_cut (max : Nat) {ps qs : List (List UInt8)} (hps : [] ∉ ps) (hqs : [] ∉ qs)
    (h : ps.flatten = qs.flatten) :
    LineRead.readAll max ps = LineRead.readAll max qs ∧
      ∀ {σ : Type} [Store σ] (clock : Clock) (i : Instance σ),
        serve max clock i ps = serve max clock i qs := by
  have hread := LineRead.readAll_cut max hps hqs h
  refine ⟨hread, fun clock i => ?_⟩
  unfold serve
  dsimp only
  rw [serveWithin_eq max clock (by omega), serveWithin_eq max clock (by omega), hread]

/-- One stream in two divisions, the second of which parts a carriage return from its line feed: a
line at the limit, an empty one, and one that is too long. -/
theorem serve_cut_return :
    LineRead.readAll 3 [[71, 69, 84, 13, 10, 13], [10, 65, 66], [67, 68, 10]] =
        LineRead.readAll 3 [[71, 69], [84, 13], [10, 13, 10, 65, 66, 67], [68], [10]] ∧
      ∀ {σ : Type} [Store σ] (clock : Clock) (i : Instance σ),
        serve 3 clock i [[71, 69, 84, 13, 10, 13], [10, 65, 66], [67, 68, 10]] =
          serve 3 clock i [[71, 69], [84, 13], [10, 13, 10, 65, 66, 67], [68], [10]] :=
  serve_cut 3 (by decide) (by decide) rfl

end Connection
end TierCache
