import TierCache.Proofs.Replication.Reapply
import TierCache.Proofs.Tiers.Counters
import TierCache.Protocol.Execute

/-!
The commands that count. They reply with the exact sum and leave its text, or refuse and leave all as it
was; so a run of them on a key comes to the exact sum of all changes, whatever is done to other keys in
between. What is subtracted is added after a change of sign, which the least integer does not have: it is
not subtracted from any number.
-/
namespace TierCache

namespace Command

/-- A command that counts. -/
inductive Counting
  | incr
  | decr
  | incrBy (amount : Int64)
  | decrBy (amount : Int64)
  deriving DecidableEq

namespace Counting

def name : Counting → String
  | incr => "INCR"
  | decr => "DECR"
  | incrBy _ => "INCRBY"
  | decrBy _ => "DECRBY"

/-- What the command adds to the number. -/
def change : Counting → Int
  | incr => 1
  | decr => -1
  | incrBy amount => amount.toInt
  | decrBy amount => -amount.toInt

/-- The arguments behind the key: the decimals of the amount, if there is one. -/
def Amounts : Counting → List String → Prop
  | incr, texts | decr, texts => texts = []
  | incrBy amount, texts | decrBy amount, texts =>
    ∃ text, texts = [text] ∧ Text.Decimal text.toList amount.toInt

/-- The tokens of the command for a key, in a region that they name or in the default region. Its name may
be in any case. Where no region is named, the key must not look like one. -/
inductive Spelled (c : Counting) (key : String) : Option String → List String → Prop
  | home {name : String} {amounts : List String} (hname : Text.upper name = c.name)
      (hkey : key.toList.head? ≠ some '@') (hamounts : c.Amounts amounts) :
      Spelled c key none (name :: key :: amounts)
  | named {name region : String} {amounts : List String} (hname : Text.upper name = c.name)
      (hregion : region ≠ "") (hamounts : c.Amounts amounts) :
      Spelled c key (some region) (name :: ("@" ++ region) :: key :: amounts)

/-- The summand that the command comes to, if there is one. -/
def delta? : Counting → Option Int64
  | incr => some 1
  | decr => some (-1)
  | incrBy amount => some amount
  | decrBy amount => Text.neg64? amount

variable {c : Counting}

theorem toInt_of_delta? {delta : Int64} (h : c.delta? = some delta) : delta.toInt = c.change := by
  cases c with
  | incr => cases h; rfl
  | decr => cases h; rfl
  | incrBy amount => cases h; rfl
  | decrBy amount => exact Text.int64OfInt?_eq_some.mp h

/-- Only the least integer has no opposite. -/
theorem delta?_eq_none : c.delta? = none ↔ c = .decrBy Int64.minValue := by
  cases c with
  | decrBy amount =>
    rw [decrBy.injEq, delta?, Text.neg64?, Text.int64OfInt?, ite_eq_right_iff, ← Int64.toInt_inj]
    have hleast := amount.le_toInt
    have hgreatest := amount.toInt_lt
    have hvalue : Int64.minValue.toInt = -9223372036854775808 := rfl
    have hlimit : (Text.signedLimit : Int) = 9223372036854775808 := rfl
    simp only [hvalue, hlimit, reduceCtorEq, imp_false]
    omega
  | _ => exact iff_of_false nofun nofun

/-- The command that is read from the name and the arguments behind the region. -/
theorem ofName_of_amounts {name key : String} {amounts : List String} (hname : Text.upper name = c.name)
    (hamounts : c.Amounts amounts) : ofName name (key :: amounts) =
      match c.delta? with
      | some delta => .ok (.incrBy key delta)
      | none => .error .notInteger := by
  have hinteger {text : String} {amount : Int64} (h : Text.Decimal text.toList amount.toInt) :
      integer text = .ok amount := by
    rw [integer, Text.int64?_eq_some.mpr h]
  unfold ofName
  extract_lets cmd
  rw [hname]
  cases c with
  | incr =>
    obtain rfl : amounts = [] := hamounts
    rfl
  | decr =>
    obtain rfl : amounts = [] := hamounts
    rfl
  | incrBy amount =>
    obtain ⟨text, rfl, htext⟩ := hamounts
    change keyAndInteger cmd (fun key n => .ok (.incrBy key n)) [key, text] = _
    simp only [keyAndInteger, hinteger htext, delta?]
  | decrBy amount =>
    obtain ⟨text, rfl, htext⟩ := hamounts
    change keyAndInteger cmd Command.decrBy [key, text] = _
    cases hopposite : Text.neg64? amount <;>
      simp only [keyAndInteger, hinteger htext, Command.decrBy, delta?, hopposite]

theorem ofTokens_of_spelled {key : String} {region : Option String} {tokens : List String}
    (h : c.Spelled key region tokens) : ofTokens tokens =
      match c.delta? with
      | some delta => .ok (region, .incrBy key delta)
      | none => .error .notInteger := by
  cases h with
  | @home name amounts hname hkey hamounts =>
    have hsplit : splitRegion (key :: amounts) = .ok (none, key :: amounts) := by
      simp only [splitRegion]
      split
      · rename_i heq
        exact absurd (congrArg List.head? heq) hkey
      · rename_i heq
        exact absurd (congrArg List.head? heq) hkey
      · rfl
    simp only [ofTokens, hsplit, ofName_of_amounts hname hamounts]
    cases c.delta? <;> rfl
  | @named name region amounts hname hregion hamounts =>
    have hsplit : splitRegion (("@" ++ region) :: key :: amounts) = .ok (some region, key :: amounts) := by
      have hchars : ("@" ++ region).toList = '@' :: region.toList := String.toList_append
      simp only [splitRegion]
      split
      · rename_i heq
        rw [hchars, List.cons.injEq, String.toList_eq_nil_iff] at heq
        exact absurd heq.2 hregion
      · rename_i heq
        rw [hchars, List.cons.injEq] at heq
        rw [← heq.2, String.ofList_toList]
      · rename_i hplain
        exact absurd hchars (hplain region.toList)
    simp only [ofTokens, hsplit, ofName_of_amounts hname hamounts]
    cases c.delta? <;> rfl

end Counting
end Command

/-- The key has a row with the value and the moment of expiry, and it is what readers see. -/
def Engine.Keeps {σ : Type} [Store σ] (picky : Prop) (stands : σ → Table → Prop) (e : Engine σ)
    (region key : String) (value : Value) (expiresAt : Option Nat) : Prop :=
  ∃ t row, stands e.store t ∧ (t.get? region key).map Entry.row = some row ∧ row.value = value ∧
    row.expiresAt = expiresAt ∧ ∀ later, InRange picky later →
      (e.perform later (.read region key)).1 = if row.isVisible later then some row else none

/-- The rows are the same, and so is what readers see of a key. -/
def Engine.Unchanged {σ : Type} [Store σ] (picky : Prop) (stands : σ → Table → Prop) (e e' : Engine σ)
    (region key : String) : Prop :=
  (∃ t, stands e.store t ∧ stands e'.store t) ∧ ∀ later, InRange picky later →
    (e'.perform later (.read region key)).1 = (e.perform later (.read region key)).1

section
variable {σ : Type} [Store σ] {picky : Prop} {stands : σ → Table → Prop}
  (dependable : Dependable picky stands) {spared : String → String → Prop} {region key : String}
  {e e' : Engine σ} {t : Table}
include dependable

theorem Holding.keeps {expiresAt : Option Nat} {n : Int} (h : Holding picky stands region key expiresAt n e t) :
    e.Keeps picky stands region key (.string (toString n)) expiresAt := by
  obtain ⟨row, hvalue, hexpiry, hrow, -⟩ := h.visible? 0
  refine ⟨t, row, h.tiers.stored, hrow, hvalue, hexpiry, fun later hlater => ?_⟩
  obtain ⟨row', -, -, hrow', hvisible⟩ := h.visible? later
  cases hrow.symm.trans hrow'
  rw [h.tiers.read dependable hlater, hvisible]

theorem Rested.unchanged (h : Tiers picky stands spared 0 e t) (hrested : Rested picky stands spared 0 e t e') :
    e.Unchanged picky stands e' region key := by
  refine ⟨⟨t, h.stored, hrested.tiers.stored⟩, fun later hlater => ?_⟩
  rw [hrested.tiers.read dependable hlater, h.read dependable hlater]
  exact (hrested.level region key).visible? later

end

namespace Instance

open Command

variable {σ : Type} [Store σ]

/-- A command that counts, and what is done before the next one. -/
structure Count where
  clock : Clock
  command : Counting
  tokens : List String
  calls : List Call

/-- The replies to commands that count, and the instance after them. -/
def count (i : Instance σ) : List Count → List Reply × Instance σ
  | [] => ([], i)
  | c :: rest =>
    let (reply, i) := i.execute c.clock c.tokens
    let (replies, i) := count (i.performAll c.calls) rest
    (reply :: replies, i)

/-- The command is for the key and has a summand; it and what is done after it come before the key
expires, and the latter is not for the key. -/
structure Count.Suits (c : Count) (picky : Prop) (region : Option String) (home key : String)
    (expiresAt : Option Nat) : Prop where
  spelled : c.command.Spelled key region c.tokens
  summand : c.command ≠ .decrBy Int64.minValue
  reading : InRange picky c.clock.wall
  live : ∀ stop ∈ expiresAt, c.clock.wall < stop
  calls : ∀ call ∈ c.calls, call.Fits picky ∧ call.operation.Avoids home key ∧
    ∀ stop ∈ expiresAt, call.now < stop

theorem execute_of_spelled (i : Instance σ) (clock : Clock) {c : Counting} {key : String}
    {region : Option String} {tokens : List String} (h : c.Spelled key region tokens) :
    i.execute clock tokens =
      match c.delta? with
      | some delta => i.perform clock (region.getD i.engine.defaultRegion) (.incrBy key delta)
      | none => (.ofError .notInteger, i) := by
  rw [execute, c.ofTokens_of_spelled h]
  cases c.delta? <;> rfl

theorem execute_sound {i : Instance σ} {setup : Engine.Setup} (sound : i.engine.Sound setup 0)
    (clock : Clock) {c : Counting} {key : String} {region : Option String} {tokens : List String}
    (h : c.Spelled key region tokens) : (i.execute clock tokens).2.engine.Sound setup 0 := by
  rw [i.execute_of_spelled clock h]
  cases c.delta? with
  | none => exact sound
  | some delta =>
    have hkept := (Engine.KeepsBooks.typed clock.wall (region.getD i.engine.defaultRegion) key
      (.incrBy delta) i.engine setup sound 0).1
    exact engine_run i clock.wall (·.incrBy clock.wall _ key delta) ▸ Engine.Sound.heard hkept

section
variable {picky : Prop} {stands : σ → Table → Prop} (dependable : Dependable picky stands)
  {spared : String → String → Prop} {i : Instance σ} {setup : Engine.Setup}
  (sound : i.engine.Sound setup 0) {t : Table} {region : Option String} {home key : String}
  (hhome : region.getD setup.defaultRegion = home) {expiresAt : Option Nat}
include dependable

/-- A counter stays what it is while other keys are operated on. -/
theorem holding_performAll {n : Int} (h : Holding picky stands home key expiresAt n i.engine t)
    {calls : List Call} (hcalls : ∀ call ∈ calls, call.Fits picky ∧ call.operation.Avoids home key ∧
      ∀ stop ∈ expiresAt, call.now < stop) :
    ∃ t', Holding picky stands home key expiresAt n (i.performAll calls).engine t' := by
  induction calls generalizing i t with
  | nil => exact ⟨t, h⟩
  | cons call rest ih =>
    rw [List.forall_mem_cons] at hcalls
    obtain ⟨⟨hfits, havoids, hlive⟩, hrest⟩ := hcalls
    obtain ⟨t', h'⟩ := h.perform dependable hfits havoids hlive
    have hengine := engine_run i call.now (·.perform call.now call.operation)
    have hheard : Holding picky stands home key expiresAt n
        (i.run call.now (·.perform call.now call.operation)).2.engine t' := by
      rw [hengine]
      exact h'.of_regions h'.tiers.stored rfl
    exact ih hheard hrest

include sound hhome

/-- What a command replies and leaves that counts on a key where a reader finds a number. -/
theorem execute_counts (h : Tiers picky stands spared 0 i.engine t) (hregion : picky → home ≠ "")
    {clock : Clock} (hnow : InRange picky clock.wall) {c : Counting} {tokens : List String}
    (hspelled : c.Spelled key region tokens) {n : Int64}
    (hcounts : CountsTo ((i.engine.cell t home key).visible? clock.wall) n) :
    let outcome := i.execute clock tokens
    if Text.Signed64 (n.toInt + c.change) ∧ c ≠ .decrBy Int64.minValue then
      outcome.1 = .integer (n.toInt + c.change) ∧ ∃ t', Holding picky stands home key
        (((i.engine.cell t home key).visible? clock.wall).bind (·.expiresAt)) (n.toInt + c.change)
        outcome.2.engine t'
    else outcome.1 = .ofError .notInteger ∧ Rested picky stands spared 0 i.engine t outcome.2.engine := by
  intro outcome
  have hexecute := i.execute_of_spelled clock hspelled
  rw [sound.defaultRegion, hhome] at hexecute
  cases hdelta : c.delta? with
  | none =>
    simp only [hdelta] at hexecute
    have hrefused : ¬(Text.Signed64 (n.toInt + c.change) ∧ c ≠ .decrBy Int64.minValue) :=
      fun hfits => hfits.2 (Counting.delta?_eq_none.mp hdelta)
    rw [if_neg hrefused]
    simp only [outcome, hexecute]
    exact ⟨trivial, .refl h⟩
  | some delta =>
    simp only [hdelta] at hexecute
    have hsome : c ≠ .decrBy Int64.minValue := fun hleast => by
      cases hdelta.symm.trans (Counting.delta?_eq_none.mpr hleast)
    have hchange := Counting.toInt_of_delta? hdelta
    have hengine : outcome.2.engine =
        { (i.engine.incrBy clock.wall home key delta).2 with signals := [] } := by
      simp only [outcome, hexecute]
      exact engine_run i clock.wall (·.incrBy clock.wall home key delta)
    have hreply : outcome.1 = replyTo (fun n => .integer n.toInt)
        (i.engine.incrBy clock.wall home key delta).1 := by
      simp only [outcome, hexecute]
      rfl
    obtain ⟨hfits, hbeyond⟩ := h.incrBy dependable delta hnow hregion hcounts
    rw [hengine, hreply, ← hchange]
    by_cases hsum : Text.Signed64 (n.toInt + delta.toInt)
    · obtain ⟨m, hm⟩ := Text.signed64_iff.mp hsum
      obtain ⟨e', t', hincr, hholding⟩ := hfits m hm
      rw [if_pos ⟨hsum, hsome⟩, hincr, ← hm]
      exact ⟨rfl, t', hholding.of_regions hholding.tiers.stored rfl⟩
    · obtain ⟨e', hincr, hrested⟩ := hbeyond hsum
      rw [if_neg fun hboth => hsum hboth.1, hincr]
      exact ⟨rfl, hrested.of_regions hrested.tiers.stored rfl⟩

/-- A command whose sum has 64 bits leaves a counter. -/
theorem execute_holding (h : Tiers picky stands spared 0 i.engine t) (hregion : picky → home ≠ "")
    {c : Count} (hsuits : c.Suits picky region home key expiresAt) {n : Int64}
    (hcounts : CountsTo ((i.engine.cell t home key).visible? c.clock.wall) n)
    (hexpiry : ((i.engine.cell t home key).visible? c.clock.wall).bind (·.expiresAt) = expiresAt)
    (hsum : Text.Signed64 (n.toInt + c.command.change)) :
    let outcome := i.execute c.clock c.tokens
    let after := outcome.2.performAll c.calls
    outcome.1 = .integer (n.toInt + c.command.change) ∧ after.engine.Sound setup 0 ∧
      ∃ t', Holding picky stands home key expiresAt (n.toInt + c.command.change) after.engine t' := by
  intro outcome after
  have hsound := sound_performAll (execute_sound sound c.clock hsuits.spelled) c.calls
  have hcounted := execute_counts dependable sound hhome h hregion hsuits.reading hsuits.spelled hcounts
  rw [if_pos ⟨hsum, hsuits.summand⟩, hexpiry] at hcounted
  obtain ⟨hreply, t', hholding⟩ := hcounted
  exact ⟨hreply, hsound, holding_performAll dependable hholding hsuits.calls⟩

/-- A run of commands whose partial sums have 64 bits replies with these and leaves a counter at the last
of them. -/
theorem count_holding (h : Tiers picky stands spared 0 i.engine t) (hregion : picky → home ≠ "")
    {c : Count} {rest : List Count} (hsuits : ∀ d ∈ c :: rest, d.Suits picky region home key expiresAt) {n : Int64}
    (hcounts : CountsTo ((i.engine.cell t home key).visible? c.clock.wall) n)
    (hexpiry : ((i.engine.cell t home key).visible? c.clock.wall).bind (·.expiresAt) = expiresAt)
    (hsums : ∀ s ∈ List.scanl (· + ·) n.toInt ((c :: rest).map (·.command.change)), Text.Signed64 s) :
    (i.count (c :: rest)).1 =
        (List.scanl (· + ·) n.toInt ((c :: rest).map (·.command.change))).tail.map .integer ∧
      ∃ t', Holding picky stands home key expiresAt
        (n.toInt + ((c :: rest).map (·.command.change)).sum) (i.count (c :: rest)).2.engine t' := by
  induction rest generalizing c i n spared t with
  | nil =>
    have hsum := hsums (n.toInt + c.command.change) (by simp)
    obtain ⟨hreply, -, hholding⟩ := execute_holding dependable sound hhome h hregion
      (hsuits c (.head _)) hcounts hexpiry hsum
    refine ⟨by simpa [count] using hreply, by simpa [count] using hholding⟩
  | cons d rest ih =>
    rw [List.forall_mem_cons] at hsuits
    obtain ⟨hfirst, hrest⟩ := hsuits
    have hsum := hsums (n.toInt + c.command.change) (by simp)
    obtain ⟨hreply, hsound, t', hholding⟩ := execute_holding dependable sound hhome h hregion hfirst
      hcounts hexpiry hsum
    obtain ⟨m, hm⟩ := Text.signed64_iff.mp hsum
    rw [List.map_cons, List.scanl_cons, ← hm] at hsums
    rw [← hm] at hholding hreply
    -- the next command finds the sum
    obtain ⟨row, hrow, hvalue, hstop⟩ := hholding.seen (hrest d (.head _)).live
    have hfound : CountsTo (some row) m := ⟨_, hvalue, .inr (Text.decimal_toString _)⟩
    rw [← hrow] at hfound
    have hkept := congrArg (·.bind (·.expiresAt)) hrow
    obtain ⟨hreplies, t'', hlast⟩ := ih hsound hholding.tiers hrest hfound (hkept.trans hstop)
      fun s hs => hsums s (.tail _ hs)
    have hcount : i.count (c :: d :: rest) =
        ((i.execute c.clock c.tokens).1 ::
            (((i.execute c.clock c.tokens).2.performAll c.calls).count (d :: rest)).1,
          (((i.execute c.clock c.tokens).2.performAll c.calls).count (d :: rest)).2) := rfl
    simp only [hcount, hreply, hreplies, List.map_cons, List.scanl_cons, List.tail_cons, List.sum_cons,
      ← hm, ← add_assoc] at hlast ⊢
    exact ⟨trivial, t'', hlast⟩

end

/-- Whatever an instance went through, a command that counts on a key where a reader finds a number replies
with the exact sum and leaves its text and the moment of expiry, if the sum has 64 bits. Otherwise it is
answered that this is no integer, and nothing is changed; and so is who subtracts the least integer,
whatever the sum. A run of commands whose partial sums all have 64 bits replies with these and leaves the
number with the sum of all changes, whatever is done to other keys in between. -/
theorem count_exact {picky : Prop} {stands : σ → Table → Prop} (dependable : Dependable picky stands)
    {store : σ} {rows : Table} (hstore : stands store rows) (named : rows.Named) (capacity : Nat)
    (defaultRegion : String) (node : Instance σ) {calls : List Call} (hcalls : ∀ c ∈ calls, c.Fits picky)
    {region : Option String} {key : String} (hregion : picky → region.getD defaultRegion ≠ "")
    {first : Count} (hspelled : first.command.Spelled key region first.tokens)
    (hnow : InRange picky first.clock.wall) :
    let i := { node with engine := .fresh store capacity defaultRegion }.performAll calls
    let home := region.getD defaultRegion
    let found := (i.engine.perform first.clock.wall (.read home key)).1
    let expiresAt := found.bind (·.expiresAt)
    ∀ n : Int64, CountsTo found n →
      (let outcome := i.execute first.clock first.tokens
        let sum := n.toInt + first.command.change
        if Text.Signed64 sum ∧ first.command ≠ .decrBy Int64.minValue then
          outcome.1 = .integer sum ∧
            outcome.2.engine.Keeps picky stands home key (.string (toString sum)) expiresAt
        else outcome.1 = .ofError .notInteger ∧
          i.engine.Unchanged picky stands outcome.2.engine home key) ∧
      ∀ rest : List Count, (∀ c ∈ first :: rest, c.Suits picky region home key expiresAt) →
        let changes := (first :: rest).map (·.command.change)
        let sums := List.scanl (· + ·) n.toInt changes
        (∀ s ∈ sums, Text.Signed64 s) →
          (i.count (first :: rest)).1 = sums.tail.map .integer ∧
          (i.count (first :: rest)).2.engine.Keeps picky stands home key
            (.string (toString (n.toInt + changes.sum))) expiresAt := by
  intro i home found expiresAt n hcounts
  have hfresh : Tiers picky stands (fun _ _ => True) 0 (Engine.fresh store capacity defaultRegion) rows :=
    .fresh hstore named (fun _ _ _ _ => .inr trivial) capacity defaultRegion
  obtain ⟨t, h⟩ : Tiers.Stand picky stands (fun _ _ => True) 0 i.engine :=
    stand_performAll dependable ⟨rows, hfresh⟩ hcalls
  have hsound : i.engine.Sound ⟨capacity, defaultRegion⟩ 0 :=
    sound_performAll (i := { node with engine := _ }) (.fresh store capacity defaultRegion) calls
  have hfound : found = (i.engine.cell t home key).visible? first.clock.wall :=
    h.read dependable hnow home key
  rw [hfound] at hcounts
  have hexpiry : expiresAt = ((i.engine.cell t home key).visible? first.clock.wall).bind (·.expiresAt) :=
    congrArg (·.bind (·.expiresAt)) hfound
  refine ⟨?_, fun rest hsuits => ?_⟩
  · have hcounted := execute_counts dependable hsound rfl h hregion hnow hspelled hcounts
    intro outcome sum
    split
    · rename_i hfits
      rw [if_pos hfits, ← hexpiry] at hcounted
      obtain ⟨hreply, t', hholding⟩ := hcounted
      exact ⟨hreply, hholding.keeps dependable⟩
    · rename_i hrefused
      rw [if_neg hrefused] at hcounted
      exact ⟨hcounted.1, hcounted.2.unchanged dependable h⟩
  · intro changes sums hsums
    obtain ⟨hreplies, t', hholding⟩ := count_holding dependable hsound rfl h hregion hsuits hcounts
      hexpiry.symm hsums
    exact ⟨hreplies, hholding.keeps dependable⟩

/-- In a memory of one slot, another key is written between two commands, and after them. -/
theorem count_exact_evicted :
    let node := Instance.start (.fresh Table.empty 1 "main") (.standalone "one") true true ⟨0, 0⟩
    let calls : List Call := [⟨1, _, .setValue "main" "n" (.string "40") (some 9)⟩]
    let other : Call := ⟨3, _, .setValue "main" "k" (.string "v") none⟩
    let first : Count := ⟨⟨2, 2⟩, .incrBy 4, ["incrBy", "n", "+4"], [other]⟩
    let second : Count := ⟨⟨4, 4⟩, .decr, ["DECR", "n"], [other]⟩
    let i := node.performAll calls
    (∀ c ∈ calls, c.Fits False) ∧ first.command.Spelled "n" none first.tokens ∧
      CountsTo (i.engine.perform 2 (.read "main" "n")).1 40 ∧
      (i.count [first, second]).1 = [.integer 44, .integer 43] ∧
      (i.count [first, second]).2.engine.Keeps False Eq "main" "n" (.string "43") (some 9) := by
  intro node calls other first second i
  have hcalls : ∀ c ∈ calls, c.Fits False := fun c _ => c.fits_any
  have hamount : Text.Decimal ("+4" : String).toList (4 : Int64).toInt :=
    Text.int64?_eq_some.mp (by decide +kernel)
  have hfirst : first.command.Spelled "n" none first.tokens :=
    .home (by decide +kernel) (by decide +kernel) ⟨"+4", rfl, hamount⟩
  have hsecond : second.command.Spelled "n" none second.tokens :=
    .home (by decide +kernel) (by decide +kernel) rfl
  have hfound : (i.engine.perform 2 (.read "main" "n")).1 = some ⟨.string "40", 1, some 9⟩ := by
    decide +kernel
  have hnumber : CountsTo (i.engine.perform 2 (.read "main" "n")).1 40 := by
    rw [hfound]
    exact ⟨"40", rfl, Edit.integer?_eq_some.mp (by decide +kernel)⟩
  have hafter : ∀ c ∈ [first, second], ∀ call ∈ c.calls, call.Fits False ∧
      call.operation.Avoids "main" "n" ∧ ∀ stop ∈ some 9, call.now < stop := by
    have hother : other.operation.Avoids "main" "n" := fun hname => absurd hname.2 (by decide)
    have hkept : other.Fits False ∧ other.operation.Avoids "main" "n" ∧ ∀ stop ∈ some 9, other.now < stop :=
      ⟨other.fits_any, hother, by decide⟩
    simp only [List.forall_mem_cons, List.not_mem_nil, false_imp_iff, implies_true, and_true]
    exact ⟨List.forall_mem_singleton.mpr hkept, List.forall_mem_singleton.mpr hkept⟩
  have hsuits : ∀ c ∈ [first, second], c.Suits False none "main" "n" (some 9) := by
    simp only [List.forall_mem_cons, List.not_mem_nil, false_imp_iff, implies_true, and_true]
    exact ⟨⟨hfirst, by decide, False.elim, by decide, hafter first (.head _)⟩,
      ⟨hsecond, by decide, False.elim, by decide, hafter second (.tail _ (.head _))⟩⟩
  have hexact {stop : Option Nat}
      (hstop : (i.engine.perform 2 (.read "main" "n")).1.bind (·.expiresAt) = stop)
      (hsuits : ∀ c ∈ [first, second], c.Suits False none "main" "n" stop) :
      (i.count [first, second]).1 = [.integer 44, .integer 43] ∧
        (i.count [first, second]).2.engine.Keeps False Eq "main" "n" (.string "43") stop := by
    subst hstop
    exact (count_exact (.of_reliable Table.reliable) (rfl : Table.empty = Table.empty)
      Table.named_empty 1 "main" node hcalls nofun hfirst nofun 40 hnumber).2
        [second] hsuits (by decide)
  exact ⟨hcalls, hfirst, hnumber, hexact (by rw [hfound]; rfl) hsuits⟩

/-- The least integer is not subtracted, not even from a number that leaves the difference in range; and
where the store does not take the row, a sum is not told though it is in range. -/
theorem count_inexact :
    (let node := Instance.start (.fresh Table.empty 1 "main") (.standalone "one") true true ⟨0, 0⟩
      let i := (node.execute ⟨1, 1⟩ ["SET", "n", "-1"]).2
      let least : Int := -9223372036854775808
      let outcome := i.execute ⟨2, 2⟩ ["DECRBY", "n", "-9223372036854775808"]
      (i.engine.perform 2 (.read "main" "n")).1 = some ⟨.string "-1", 1, none⟩ ∧
        Text.Signed64 least ∧ Text.Signed64 (-1 - least) ∧ outcome = (.ofError .notInteger, i)) ∧
    (let store := (Faulty.sound Table.empty).failing [.save]
      let node := Instance.start (.fresh store 1 "main") (.standalone "one") true true ⟨0, 0⟩
      (node.engine.perform 2 (.read "main" "n")).1 = none ∧
        (node.execute ⟨2, 2⟩ ["INCR", "n"]).1 = .ofError (Faulty.injected .save)) := by
  refine ⟨?_, by decide +kernel, by with_unfolding_all rfl⟩
  intro node i least outcome
  have hfound : (i.engine.perform 2 (.read "main" "n")).1 = some ⟨.string "-1", 1, none⟩ := by
    decide +kernel
  have hamount : Text.Decimal ("-9223372036854775808" : String).toList Int64.minValue.toInt :=
    Text.int64?_eq_some.mp (by decide +kernel)
  have hspelled : (Counting.decrBy Int64.minValue).Spelled "n" none
      ["DECRBY", "n", "-9223372036854775808"] :=
    .home (by decide +kernel) (by decide +kernel) ⟨_, rfl, hamount⟩
  have hexecute := i.execute_of_spelled ⟨2, 2⟩ hspelled
  rw [Counting.delta?_eq_none.mpr rfl] at hexecute
  exact ⟨hfound, by decide, by decide, hexecute⟩

end Instance
end TierCache
