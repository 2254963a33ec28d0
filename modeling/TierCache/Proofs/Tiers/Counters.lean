import TierCache.Proofs.Json.Floats
import TierCache.Proofs.Tiers.Editing

/-!
Counters: keys that hold the text of an integer of 64 bits. Counting leaves the text of the exact sum, or
nothing is done; and what a counter holds stays while operations are for other keys, whichever entries they
move out of memory.
-/
namespace TierCache
open Std

namespace Text

/-- An integer of 64 bits. -/
def Signed64 (n : Int) : Prop := -(signedLimit : Int) ≤ n ∧ n < signedLimit

instance (n : Int) : Decidable (Signed64 n) := inferInstanceAs (Decidable (_ ∧ _))

theorem signed64_iff {n : Int} : Signed64 n ↔ ∃ m : Int64, m.toInt = n :=
  ⟨fun h => ⟨Int64.ofInt n, Int64.toInt_ofInt_of_le h.1 h.2⟩,
    fun ⟨m, hm⟩ => hm ▸ ⟨m.le_toInt, m.toInt_lt⟩⟩

theorem digits_toDigits (n : Nat) : Digits (Nat.toDigits 10 n) n := by
  refine ⟨Nat.toDigits_ne_nil, fun c hc => ?_, ?_⟩
  · have hdigit := Json.isDigit_of_mem_digits hc
    rw [Char.isDigit, Bool.and_eq_true, decide_eq_true_eq, decide_eq_true_eq] at hdigit
    exact hdigit
  · have hvalue := Nat.ofDigitChars_ten_toDigits (n := n)
    rw [Nat.ofDigitChars] at hvalue
    convert hvalue using 2
    funext k c
    rw [Nat.mul_comm]
    rfl

/-- The text of an integer is decimals of it. -/
theorem decimal_toString (n : Int) : Decimal (toString n).toList n := by
  have hdigits := digits_toDigits n.natAbs
  rw [Json.toList_int]
  split
  · exact .inr (.inr ⟨_, _, rfl, hdigits, by omega⟩)
  · exact .inl ⟨_, hdigits, by omega⟩

end Text

namespace Edit

variable {text : String} {n delta : Int64}

theorem incr_of_fits (hcounts : CountsAs text n) {m : Int64} (hm : m.toInt = n.toInt + delta.toInt) :
    incr delta text = .ok ⟨m, true, toString m.toInt⟩ := by
  have hsum : Text.add64? n delta = some m := Text.int64OfInt?_eq_some.mpr hm
  simp only [incr, integer?_eq_some.mpr hcounts, Option.bind_some, hsum]
  rfl

theorem incr_of_beyond (hcounts : CountsAs text n) (hbeyond : ¬Text.Signed64 (n.toInt + delta.toInt)) :
    incr delta text = .error .notInteger := by
  have hsum : Text.add64? n delta = none := by
    rw [Option.eq_none_iff_forall_ne_some]
    intro m hm
    exact hbeyond (Text.signed64_iff.mpr ⟨m, Text.int64OfInt?_eq_some.mp hm⟩)
  simp only [incr, integer?_eq_some.mpr hcounts, Option.bind_some, hsum]

end Edit

/-- The number that a reader finds at a key. A key that is absent counts as zero. -/
def CountsTo (found : Option Row) (n : Int64) : Prop :=
  match found with
  | none => n = 0
  | some row => ∃ text, row.value = .string text ∧ Edit.CountsAs text n

/-- Both tiers are in order, at the key also if its row is from before the run; it has a row, with the
text of the number. -/
structure Holding {σ : Type} (picky : Prop) (stands : σ → Table → Prop) (region key : String)
    (expiresAt : Option Nat) (n : Int) (e : Engine σ) (t : Table) : Prop where
  tiers : Tiers picky stands (fun other name => ¬(region = other ∧ key = name)) 0 e t
  row : ∃ row, t.get? region key = some row ∧ row.value = .string (toString n) ∧
    row.expiresAt = expiresAt

namespace Tiers

variable {σ : Type} {picky : Prop} {stands : σ → Table → Prop} {spared : String → String → Prop}
  {since : Nat} {e : Engine σ} {t : Table}

/-- A key that is listed need not be spared. -/
theorem sparing (h : Tiers picky stands spared since e t) {region key : String}
    (listed : (e.cell t region key).Listed since) :
    Tiers picky stands (fun other name => ¬(region = other ∧ key = name)) since e t := by
  refine ⟨h.stored, h.named, h.filed, fun other name => ⟨(h.cells other name).agrees, ?_⟩⟩
  by_cases hname : region = other ∧ key = name
  · exact .inr (hname.1 ▸ hname.2 ▸ listed)
  · exact .inl hname

variable [Store σ] (dependable : Dependable picky stands) (h : Tiers picky stands spared 0 e t)
  {now : Nat} {region key : String} {n delta : Int64}
include dependable h

/-- Counting on an entry writes the text of the exact sum. -/
theorem editEntry_incr {entry : Entry} (hfiled : entry.Filed picky region key) {text : String}
    (hvalue : entry.value = .string text) (hcounts : Edit.CountsAs text n) {m : Int64}
    (hm : m.toInt = n.toInt + delta.toInt) :
    ∃ e' t', e.editEntry region key .text (Edit.incr delta) entry = (.ok m, e') ∧
      Holding picky stands region key entry.expiresAt m.toInt e' t' := by
  have hof : Engine.Contents.text.of? entry.value = some text := by rw [hvalue]; rfl
  obtain ⟨rfl, rfl, hfits⟩ := hfiled
  have hafter : ({ entry with value := .string (toString m.toInt) } : Entry).Fits picky := by
    intro hpicky
    obtain ⟨hregion, hstorable⟩ := hfits hpicky
    exact ⟨hregion, trivial, hstorable.createdAt, hstorable.lastAccessedAt, hstorable.expiresAt⟩
  obtain ⟨createdAt, e', hput, hwrote⟩ := h.put dependable hafter
  have hwrite : e.writeBack entry.region entry.key
      { entry with value := Engine.Contents.text.wrap (toString m.toInt) } = (.ok (), e') := hput
  refine ⟨e', _, ?_, hwrote.tiers.sparing (.written hwrote.written 0), _, hwrote.written.stored, rfl, rfl⟩
  simp only [Engine.editEntry, hof, Edit.incr_of_fits hcounts hm, if_true, hwrite]

/-- Counting on a key replies with the exact sum and writes its text, if the sum has 64 bits. Otherwise it
is refused and is no more than a read. -/
theorem incrBy (delta : Int64) (hnow : InRange picky now) (hregion : picky → region ≠ "")
    (hcounts : CountsTo ((e.cell t region key).visible? now) n) :
    (∀ m : Int64, m.toInt = n.toInt + delta.toInt → ∃ e' t',
      e.incrBy now region key delta = (.ok m, e') ∧ Holding picky stands region key
        (((e.cell t region key).visible? now).bind (·.expiresAt)) m.toInt e' t') ∧
    (¬Text.Signed64 (n.toInt + delta.toInt) → ∃ e',
      e.incrBy now region key delta = (.error .notInteger, e') ∧ Rested picky stands spared 0 e t e') := by
  obtain ⟨found, e₁, hget, hseen, hrested⟩ := h.getEntry dependable (Nat.zero_le now) hnow region key
  rw [← hseen.row] at hcounts ⊢
  -- what is counted on is the entry that was found, or a new one without text
  obtain ⟨entry, text, hentry, hfiled, hvalue, htext, hexpiry⟩ : ∃ entry text,
      e.incrBy now region key delta = e₁.editEntry region key .text (Edit.incr delta) entry ∧
        entry.Filed picky region key ∧ entry.value = .string text ∧ Edit.CountsAs text n ∧
        (found.map Entry.row).bind (·.expiresAt) = entry.expiresAt := by
    cases found with
    | none =>
      refine ⟨.create now region key (.string "") none, "", ?_, ⟨rfl, rfl, fun hpicky => ?_⟩, rfl,
        .inl ⟨rfl, hcounts⟩, rfl⟩
      · simp only [Engine.incrBy, Engine.upsert, hget]
        rfl
      · exact ⟨hregion hpicky, trivial, hnow hpicky, hnow hpicky, fun _ hnever => by cases hnever⟩
    | some entry =>
      obtain ⟨text, hvalue, htext⟩ := hcounts
      refine ⟨entry, text, ?_, hseen.filed rfl, hvalue, htext, rfl⟩
      simp only [Engine.incrBy, Engine.upsert, hget]
  rw [hentry, hexpiry]
  refine ⟨fun m hm => hrested.tiers.editEntry_incr dependable hfiled hvalue htext hm,
    fun hbeyond => ⟨e₁, ?_, hrested⟩⟩
  have hof : Engine.Contents.text.of? entry.value = some text := by rw [hvalue]; rfl
  simp only [Engine.editEntry, hof, Edit.incr_of_beyond htext hbeyond]

end Tiers

namespace Holding

variable {σ : Type} {picky : Prop} {stands : σ → Table → Prop} {region key : String}
  {expiresAt : Option Nat} {n : Int} {e : Engine σ} {t : Table}

theorem of_regions (h : Holding picky stands region key expiresAt n e t) {e' : Engine σ}
    (stored : stands e'.store t) (regions : e'.regions = e.regions) :
    Holding picky stands region key expiresAt n e' t :=
  ⟨h.tiers.of_regions stored regions, h.row⟩

/-- What is to be seen of a counter is its row. -/
theorem visible? (h : Holding picky stands region key expiresAt n e t) (now : Nat) :
    ∃ row : Row, row.value = .string (toString n) ∧ row.expiresAt = expiresAt ∧
      (t.get? region key).map Entry.row = some row ∧
      (e.cell t region key).visible? now = if row.isVisible now then some row else none := by
  obtain ⟨entry, hentry, hvalue, hexpiry⟩ := h.row
  have horderly : (e.cell t region key).Orderly False 0 :=
    ⟨(h.tiers.cells region key).agrees,
      .inr ((h.tiers.cells region key).listed.resolve_left fun hother => hother ⟨rfl, rfl⟩)⟩
  have hheld : (e.cell t region key).held = some entry.row := by
    rw [horderly.held_eq]
    exact congrArg (Option.map Entry.row) hentry
  refine ⟨entry.row, hvalue, hexpiry, by rw [hentry, Option.map_some], ?_⟩
  rw [Cell.visible?, hheld, Option.filter_some]

/-- Until it expires, a counter is seen. -/
theorem seen (h : Holding picky stands region key expiresAt n e t) {now : Nat}
    (hlive : ∀ stop ∈ expiresAt, now < stop) :
    ∃ row, (e.cell t region key).visible? now = some row ∧ row.value = .string (toString n) ∧
      row.expiresAt = expiresAt := by
  obtain ⟨row, hvalue, hexpiry, -, hvisible⟩ := h.visible? now
  have hshown : row.isVisible now = true := by
    rw [Row.isVisible, hexpiry]
    cases expiresAt with
    | none => rfl
    | some stop => exact decide_eq_true (hlive stop rfl)
  exact ⟨row, by rw [hvisible, if_pos hshown], hvalue, hexpiry⟩

variable [Store σ] (dependable : Dependable picky stands)
include dependable

/-- What is done to other keys leaves a counter as it is, and so does who asks for it. -/
theorem perform (h : Holding picky stands region key expiresAt n e t) {c : Call} (hfits : c.Fits picky)
    (havoids : c.operation.Avoids region key) (hlive : ∀ stop ∈ expiresAt, c.now < stop) :
    ∃ t', Holding picky stands region key expiresAt n (e.perform c.now c.operation).2 t' := by
  obtain ⟨t', h', hkept⟩ := h.tiers.perform_keeps dependable (Nat.zero_le _) hfits.1 hfits.2
  obtain ⟨row, hrow, -, -⟩ := h.seen hlive
  have hsame := hkept region key havoids (fun hother => hother ⟨rfl, rfl⟩) ⟨row, hrow⟩
  exact ⟨t', h', by rw [hsame]; exact h.row⟩

end Holding
end TierCache
