import TierCache.Protocol.Session
import TierCache.Store.Table

/-!
Transactions. What a client sends between MULTI and EXEC is kept and touches nothing; EXEC answers as
if the commands that were kept had been sent one after another at its own moment, outside of MULTI.
-/
namespace TierCache

/-- The name of the command on a line, in capitals. A blank line and one that cannot be read have
none. -/
def Token.name? (line : String) : Option String :=
  match tokenize line with
  | .ok (first :: _) => some (Text.upper first)
  | _ => none

namespace Session

/-- Whether a line ends what MULTI began. -/
def ends (line : String) : Bool := Token.name? line = some "EXEC" || Token.name? line = some "DISCARD"

/-- Whether a line holds a command other than MULTI and QUIT. -/
def keeps (line : String) : Bool :=
  match Token.name? line with
  | some name => name ≠ "MULTI" && name ≠ "QUIT"
  | none => false

/-- The tokens of a line, none where it cannot be read. -/
def tokensOf (line : String) : List String := (Token.tokenize line).toOption.getD []

/-- What a line between MULTI and EXEC is answered with. -/
def answer (line : String) : Option Reply :=
  match Token.tokenize line with
  | .error e => some (.ofError e)
  | .ok [] => none
  | .ok (first :: _) =>
    if Text.upper first = "MULTI" then some (.error "MULTI calls can not be nested")
    else if Text.upper first = "QUIT" then some .ok
    else some (.simple "QUEUED")

/-- What a line between MULTI and EXEC leaves of a session. -/
def keep (s : Session) (line : String) : Session :=
  { queue := if keeps line then s.queue.map (· ++ [tokensOf line]) else s.queue
    closing := s.closing || Token.name? line = some "QUIT" }

variable {σ : Type} [Store σ]

/-- The lines of a client, each with the reading of the clock at which it comes in, one after
another. -/
def converse (s : Session) (i : Instance σ) :
    List (Clock × String) → List (Option Reply) × Session × Instance σ
  | [] => ([], s, i)
  | (clock, line) :: rest =>
    let (reply, s, i) := s.handleLine i clock line
    let (replies, s, i) := converse s i rest
    (reply :: replies, s, i)

/-! ## One line -/

theorem name?_eq_some {line name : String} (h : Token.name? line = some name) :
    ∃ first rest, Token.tokenize line = .ok (first :: rest) ∧ Text.upper first = name := by
  unfold Token.name? at h
  split at h
  · rename_i first rest htokens
    exact ⟨first, rest, htokens, Option.some.inj h⟩
  · cases h

theorem handleLine_multi {s : Session} (hs : s.queue = none) (i : Instance σ) (clock : Clock)
    {line : String} (h : Token.name? line = some "MULTI") :
    s.handleLine i clock line = (some .ok, { s with queue := some [] }, i) := by
  obtain ⟨first, rest, htokens, hfirst⟩ := name?_eq_some h
  simp [handleLine, htokens, hfirst, multi, hs]

theorem handleLine_exec {s : Session} {queue : List (List String)} (hs : s.queue = some queue)
    (i : Instance σ) (clock : Clock) {line : String} (h : Token.name? line = some "EXEC") :
    s.handleLine i clock line =
      (some (.nested (executeAll i clock queue).1), { s with queue := none },
        (executeAll i clock queue).2) := by
  obtain ⟨first, rest, htokens, hfirst⟩ := name?_eq_some h
  simp [handleLine, htokens, hfirst, exec, hs]

theorem handleLine_discard {s : Session} {queue : List (List String)} (hs : s.queue = some queue)
    (i : Instance σ) (clock : Clock) {line : String} (h : Token.name? line = some "DISCARD") :
    s.handleLine i clock line = (some .ok, { s with queue := none }, i) := by
  obtain ⟨first, rest, htokens, hfirst⟩ := name?_eq_some h
  simp [handleLine, htokens, hfirst, discard, hs]

/-- A line with any other command is for `command`. -/
theorem handleLine_command (s : Session) (i : Instance σ) (clock : Clock) {line : String}
    (hkeeps : keeps line) (hends : ends line = false) :
    s.handleLine i clock line =
      (some (s.command i clock (tokensOf line)).1, (s.command i clock (tokensOf line)).2) := by
  unfold keeps at hkeeps
  split at hkeeps
  case h_2 => cases hkeeps
  case h_1 name hname =>
    obtain ⟨first, rest, htokens, rfl⟩ := name?_eq_some hname
    simp only [ends, hname] at hends
    simp only [handleLine, tokensOf, htokens, Except.toOption, Option.getD_some]
    split <;> simp_all

/-- Between MULTI and EXEC a line is answered at once, and kept if it holds a command. -/
theorem handleLine_open {s : Session} {queue : List (List String)} (hs : s.queue = some queue)
    (i : Instance σ) (clock : Clock) {line : String} (hends : ends line = false) :
    s.handleLine i clock line = (answer line, s.keep line, i) := by
  obtain ⟨_, closing⟩ := s
  obtain rfl : _ = some queue := hs
  by_cases hkeeps : keeps line
  · rw [handleLine_command _ i clock hkeeps hends]
    unfold keeps Token.name? at hkeeps
    cases htokens : Token.tokenize line with
    | error e => simp [htokens] at hkeeps
    | ok tokens =>
      cases tokens with
      | nil => simp [htokens] at hkeeps
      | cons first rest => simp_all [command, answer, keep, keeps, Token.name?]
  · cases htokens : Token.tokenize line with
    | error e => simp [handleLine, answer, keep, keeps, Token.name?, htokens]
    | ok tokens =>
      cases tokens with
      | nil => simp [handleLine, answer, keep, keeps, Token.name?, htokens]
      | cons first rest =>
        by_cases hfirst : Text.upper first = "MULTI"
        · simp [handleLine, answer, keep, keeps, Token.name?, htokens, hfirst, multi]
        · have hquit : Text.upper first = "QUIT" := by
            simpa [keeps, Token.name?, htokens, hfirst] using hkeeps
          simp [handleLine, answer, keep, keeps, Token.name?, htokens, hquit]

/-- Outside of MULTI a command is carried out. -/
theorem handleLine_direct {s : Session} (hs : s.queue = none) (i : Instance σ) (clock : Clock)
    {line : String} (hkeeps : keeps line) (hends : ends line = false) :
    s.handleLine i clock line =
      (some (i.execute clock (tokensOf line)).1, s, (i.execute clock (tokensOf line)).2) := by
  simp [handleLine_command s i clock hkeeps hends, command, hs]

/-! ## A whole transaction -/

theorem queue_keep {s : Session} {queue : List (List String)} (hs : s.queue = some queue)
    (line : String) :
    (s.keep line).queue = some (queue ++ ([line].filter keeps).map tokensOf) := by
  by_cases h : keeps line <;> simp [keep, h, hs]

/-- The lines between MULTI and EXEC leave the instance alone. -/
theorem converse_open (lines : List (Clock × String)) {s : Session} {queue : List (List String)}
    (hs : s.queue = some queue) (i : Instance σ)
    (hlines : ∀ l ∈ lines, ends l.2 = false) :
    s.converse i lines =
      (lines.map fun l => answer l.2,
        { queue := some (queue ++ ((lines.map Prod.snd).filter keeps).map tokensOf)
          closing := s.closing || lines.any fun l => Token.name? l.2 = some "QUIT" }, i) := by
  induction lines generalizing s queue with
  | nil => simp [converse, ← hs]
  | cons l rest ih =>
    obtain ⟨clock, line⟩ := l
    have hline : ends line = false := hlines _ List.mem_cons_self
    have hrest := ih (queue_keep hs line) fun l hl => hlines l (List.mem_cons_of_mem _ hl)
    simp only [converse, handleLine_open hs i clock hline, hrest, List.map_cons, List.any_cons,
      Prod.mk.injEq, Session.mk.injEq, Option.some.injEq, true_and, and_true]
    refine ⟨?_, Bool.or_assoc ..⟩
    rw [List.append_assoc, ← List.map_append, ← List.filter_append, List.singleton_append]

/-- Commands that are sent outside of MULTI at one moment are carried out one after another. -/
theorem converse_direct (moment : Clock) (lines : List String) {s : Session} (hs : s.queue = none)
    (i : Instance σ) (hlines : ∀ line ∈ lines, keeps line = true ∧ ends line = false) :
    s.converse i (lines.map fun line => (moment, line)) =
      ((executeAll i moment (lines.map tokensOf)).1.map some, s,
        (executeAll i moment (lines.map tokensOf)).2) := by
  induction lines generalizing i with
  | nil => rfl
  | cons line rest ih =>
    obtain ⟨hkeeps, hends⟩ := hlines line List.mem_cons_self
    have hrest := ih (i.execute moment (tokensOf line)).2
      fun l hl => hlines l (List.mem_cons_of_mem _ hl)
    simp only [List.map_cons, converse, handleLine_direct hs i moment hkeeps hends, hrest, executeAll]

/-- A transaction. MULTI and the lines behind it leave the instance as it is, whatever the clock reads
for each of them: a line with a command is answered with QUEUED and joins the queue, a blank line, one
that cannot be read, another MULTI and QUIT are answered at once and do not join it. EXEC then gives
the replies, and leaves the instance, of sending just the lines with commands to a session that is not
in MULTI, one after another at the moment of EXEC; DISCARD leaves the instance as it was. -/
theorem exec_eq_direct {s : Session} (hs : s.queue = none) (i : Instance σ)
    {opening : Clock × String} (hopening : Token.name? opening.2 = some "MULTI")
    {lines : List (Clock × String)} (hlines : ∀ l ∈ lines, ends l.2 = false) :
    let kept := (lines.map Prod.snd).filter keeps
    let closing := s.closing || lines.any fun l => Token.name? l.2 = some "QUIT"
    let during : Session := ⟨some (kept.map tokensOf), closing⟩
    s.converse i (opening :: lines) = (some .ok :: lines.map (fun l => answer l.2), during, i) ∧
      (∀ clock line, Token.name? line = some "EXEC" → ∃ replies j,
        s.converse i (kept.map fun line => (clock, line)) = (replies.map some, s, j) ∧
          during.handleLine i clock line = (some (.nested replies), ⟨none, closing⟩, j)) ∧
      ∀ clock line, Token.name? line = some "DISCARD" →
        during.handleLine i clock line = (some .ok, ⟨none, closing⟩, i) := by
  intro kept closing during
  refine ⟨?_, fun clock line hexec => ?_, fun clock line => handleLine_discard rfl i clock⟩
  · have hopen := converse_open lines (s := ⟨some [], s.closing⟩) rfl i hlines
    simp only [converse, handleLine_multi hs i opening.1 hopening, hopen, List.nil_append, during,
      kept, closing]
  · have hkept : ∀ line ∈ kept, keeps line = true ∧ ends line = false := by
      intro line hline
      obtain ⟨hmem, hkeeps⟩ := List.mem_filter.mp hline
      obtain ⟨l, hl, rfl⟩ := List.mem_map.mp hmem
      exact ⟨hkeeps, hlines l hl⟩
    exact ⟨_, _, converse_direct clock kept hs i hkept, handleLine_exec rfl i clock hexec⟩

/-- A transaction with a blank line, one that cannot be read, another MULTI, QUIT and names in small
letters in it. -/
theorem exec_eq_direct_mixed :
    let node := Instance.start (.fresh Table.empty 1 "main") (.standalone "one") true true ⟨0, 0⟩
    let lines : List (Clock × String) := [(⟨1, 1⟩, "set k 7"), (⟨2, 2⟩, " "), (⟨3, 3⟩, "GET \"k"),
      (⟨4, 4⟩, "multi"), (⟨5, 5⟩, "QUIT"), (⟨6, 6⟩, "INCR k")]
    let during : Session := ⟨some [["set", "k", "7"], ["INCR", "k"]], true⟩
    fresh.queue = none ∧ Token.name? "multi" = some "MULTI" ∧ (∀ l ∈ lines, ends l.2 = false) ∧
      Token.name? "Exec" = some "EXEC" ∧ fresh.converse node ((⟨0, 0⟩, "multi") :: lines) =
        ([some .ok, some (.simple "QUEUED"), none,
          some (.ofError (.malformedLine "unterminated quote (\")")),
          some (.error "MULTI calls can not be nested"), some .ok, some (.simple "QUEUED")],
        during, node) ∧
      during.handleLine node ⟨9, 9⟩ "Exec" =
        (some (.nested [.ok, .count 8]), ⟨none, true⟩,
          (fresh.converse node [(⟨9, 9⟩, "set k 7"), (⟨9, 9⟩, "INCR k")]).2.2) := by
  have hreplies : (executeAll (Instance.start (.fresh Table.empty 1 "main") (.standalone "one") true
      true ⟨0, 0⟩) ⟨9, 9⟩ [["set", "k", "7"], ["INCR", "k"]]).1 = [.ok, .count 8] := by
    with_unfolding_all exact rfl
  intro node lines during
  have hopening : Token.name? ((⟨0, 0⟩, "multi") : Clock × String).2 = some "MULTI" := by decide +kernel
  have hlines : ∀ l ∈ lines, ends l.2 = false := by decide +kernel
  have hexec : Token.name? "Exec" = some "EXEC" := by decide +kernel
  have hkept : (lines.map Prod.snd).filter keeps = ["set k 7", "INCR k"] := by decide +kernel
  have htokens : ["set k 7", "INCR k"].map tokensOf = [["set", "k", "7"], ["INCR", "k"]] := by
    decide +kernel
  have hquit : (lines.any fun l => Token.name? l.2 = some "QUIT") = true := by decide +kernel
  have h := exec_eq_direct (s := fresh) rfl node hopening hlines
  have hdirect := converse_direct ⟨9, 9⟩ ["set k 7", "INCR k"] (s := fresh) rfl node
    (by decide +kernel)
  dsimp only at h
  rw [hkept, hquit] at h
  rw [htokens] at h hdirect
  obtain ⟨hduring, hnested, -⟩ := h
  obtain ⟨replies, j, hsent, hclosed⟩ := hnested ⟨9, 9⟩ "Exec" hexec
  refine ⟨rfl, hopening, hlines, hexec, hduring.trans ?_, hclosed.trans ?_⟩
  · with_unfolding_all exact rfl
  · have hboth := hsent.symm.trans hdirect
    simp only [Prod.mk.injEq, List.map_inj_right fun _ _ => Option.some.inj, true_and] at hboth
    obtain ⟨rfl, rfl⟩ := hboth
    have hstate : (fresh.converse node [(⟨9, 9⟩, "set k 7"), (⟨9, 9⟩, "INCR k")]).2.2 =
        (executeAll node ⟨9, 9⟩ [["set", "k", "7"], ["INCR", "k"]]).2 := congrArg (·.2.2) hdirect
    rw [hstate]
    exact congrArg (fun replies => (some (Reply.nested replies), _, _)) hreplies

end Session
end TierCache
