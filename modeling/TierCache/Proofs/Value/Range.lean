import TierCache.Engine.Typed
import TierCache.Proofs.Value.Contents
import TierCache.Store.Table

/-!
Ranges are exact. Whatever ends are asked for, a range has the elements that stand between them, in order;
no sum on the way has more than 64 bits, and no position lies outside the sequence.
-/
namespace TierCache

namespace Range

/-- The position that an end names in a sequence of a length; a negative one counts from the tail, and may
lie before the head. -/
def place (length : Nat) (limit : Int64) : Int :=
  if limit.toInt < 0 then length + limit.toInt else limit.toInt

/-- The elements whose positions are neither before the first nor after the last one, in order. -/
def between {α : Type} (xs : List α) (first last : Int) : List α :=
  (xs.zipIdx.filter fun (_, i) => first ≤ i ∧ i ≤ last).map (·.1)

/-! ### The steps, checked -/

/-- The number of a position; there is none for a negative one. -/
def natural? (i : Int64) : Option Nat := if 0 ≤ i then some i.toNatClampNeg else none

/-- Where a range starts; nothing when a sum does not have 64 bits. -/
def checkedFirst (len start : Int64) : Option Int64 :=
  if start < 0 then (Text.add64? len start).map (max · 0) else some start

/-- Where a range stops; nothing when a sum or a difference does not have 64 bits. -/
def checkedLast (len stop : Int64) : Option Int64 :=
  if stop < 0 then Text.add64? len stop
  else (Text.int64OfInt? (len.toInt - 1)).map (min stop ·)

/-- The bounds with every step checked: nothing at all when the length, a sum or a difference does not have
64 bits, or a position is negative. -/
def checkedBounds (length : Nat) (start stop : Int64) : Option (Option (Nat × Nat)) :=
  if length = 0 then some none
  else do
    let len ← Text.int64OfInt? length
    let first ← checkedFirst len start
    let last ← checkedLast len stop
    if last < first ∨ len ≤ first then return none
    return some (← natural? first, ← natural? last)

/-- The elements in a range, with every step checked: nothing at all also when a position is not in the
sequence, or their number does not have 64 bits. -/
def checkedSlice {α : Type} (xs : List α) (start stop : Int64) : Option (List α) := do
  match ← checkedBounds xs.length start stop with
  | none => return []
  | some (first, last) =>
    if first ≤ last ∧ last < xs.length ∧ last - first + 1 ≤ Text.maxUnsigned then
      return (xs.drop first).take (last - first + 1)
    else none

/-! ### Between two positions -/

section Between

variable {α : Type}

theorem between_cons (x : α) (xs : List α) (first last : Int) :
    between (x :: xs) first last =
      (if first ≤ 0 ∧ 0 ≤ last then [x] else []) ++ between xs (first - 1) (last - 1) := by
  have hrest : (xs.zipIdx 1).filter (fun (_, i) => first ≤ i ∧ i ≤ last) =
      (xs.zipIdx.filter fun (_, i) => first - 1 ≤ i ∧ i ≤ last - 1).map fun (y, i) => (y, i + 1) := by
    rw [List.zipIdx_succ, List.filter_map]
    congr 2
    funext ⟨y, i⟩
    simp only [Function.comp_apply, decide_eq_decide]
    omega
  rw [between, List.zipIdx_cons, Nat.zero_add]
  by_cases hx : first ≤ 0 ∧ 0 ≤ last
  · rw [List.filter_cons_of_pos (by simpa using hx), if_pos hx, hrest, List.map_cons, List.map_map]
    rfl
  · rw [List.filter_cons_of_neg (by simpa using hx), if_neg hx, hrest, List.map_map]
    rfl

/-- What is between two positions is what comes up to the last one, without what is before the first. -/
theorem between_eq (xs : List α) (first last : Int) :
    between xs first last = (xs.take (last + 1).toNat).drop first.toNat := by
  induction xs generalizing first last with
  | nil => rw [List.take_nil, List.drop_nil]; rfl
  | cons x xs ih =>
    rw [between_cons, ih]
    by_cases hlast : 0 ≤ last
    · rw [show (last + 1).toNat = (last - 1 + 1).toNat + 1 by omega, List.take_succ_cons]
      by_cases hfirst : first ≤ 0
      · rw [if_pos ⟨hfirst, hlast⟩, show (first - 1).toNat = 0 by omega,
          show first.toNat = 0 by omega]
        rfl
      · rw [if_neg (by omega), show first.toNat = (first - 1).toNat + 1 by omega,
          List.drop_succ_cons]
        rfl
    · rw [if_neg (by omega), show (last - 1 + 1).toNat = 0 by omega,
        show (last + 1).toNat = 0 by omega]
      simp only [List.take_zero, List.drop_nil, List.append_nil]

end Between

/-! ### Arithmetic -/

section Arithmetic

/-- A negative number can be added to one that is not negative. -/
theorem toInt_add_negative {a b : Int64} (ha : 0 ≤ a.toInt) (hb : b.toInt < 0) :
    (a + b).toInt = a.toInt + b.toInt := by
  have := a.toInt_lt
  have := b.le_toInt
  rw [Int64.toInt_add, Int.bmod_eq_of_le] <;> omega

theorem toInt_sub_one {a : Int64} (ha : 0 ≤ a.toInt) : (a - 1).toInt = a.toInt - 1 := by
  rw [Int64.sub_eq_add_neg, toInt_add_negative ha (by decide)]
  rfl

theorem toInt_max (a b : Int64) : (max a b).toInt = max a.toInt b.toInt := by
  change (if a ≤ b then b else a).toInt = _
  rw [apply_ite Int64.toInt, max_def]
  simp only [Int64.le_iff_toInt_le]

theorem toInt_min (a b : Int64) : (min a b).toInt = min a.toInt b.toInt := by
  change (if a ≤ b then a else b).toInt = _
  rw [apply_ite Int64.toInt, min_def]
  simp only [Int64.le_iff_toInt_le]

theorem add64?_negative {a b : Int64} (ha : 0 ≤ a.toInt) (hb : b.toInt < 0) :
    Text.add64? a b = some (a + b) :=
  Text.int64OfInt?_eq_some.mpr (toInt_add_negative ha hb)

theorem natural?_eq {i : Int64} (hi : 0 ≤ i.toInt) : natural? i = some i.toNatClampNeg :=
  if_pos (Int64.le_iff_toInt_le.mpr (show (0 : Int64).toInt ≤ i.toInt from hi))

variable {length : Nat} (start stop : Int64)

/-- Where a range starts, if anywhere. -/
def firstOf (len start : Int64) : Int64 := if start < 0 then max (len + start) 0 else start

/-- Where a range stops, if anywhere. -/
def lastOf (len stop : Int64) : Int64 := if stop < 0 then len + stop else min stop (len - 1)

theorem bounds_eq (length : Nat) : bounds length start stop =
    if length = 0 then none
    else if lastOf (.ofNat length) stop < firstOf (.ofNat length) start ∨
        .ofNat length ≤ firstOf (.ofNat length) start then none
    else some ((firstOf (.ofNat length) start).toNatClampNeg,
      (lastOf (.ofNat length) stop).toNatClampNeg) := rfl

theorem checkedFirst_eq {len : Int64} (hlen : 0 ≤ len.toInt) :
    checkedFirst len start = some (firstOf len start) := by
  unfold checkedFirst firstOf
  split
  · rename_i hstart
    rw [add64?_negative hlen (Int64.lt_iff_toInt_lt.mp hstart), Option.map_some]
  · rfl

theorem checkedLast_eq {len : Int64} (hlen : 0 ≤ len.toInt) :
    checkedLast len stop = some (lastOf len stop) := by
  unfold checkedLast lastOf
  split
  · rename_i hstop
    exact add64?_negative hlen (Int64.lt_iff_toInt_lt.mp hstop)
  · rw [Text.int64OfInt?_eq_some.mpr (toInt_sub_one hlen), Option.map_some]

variable (h : length < 2 ^ 63)
include h

theorem toInt_firstOf : (firstOf (.ofNat length) start).toInt = max (place length start) 0 := by
  have hlen := Int64.toInt_ofNat_of_lt h
  have hzero : (0 : Int64).toInt = 0 := rfl
  simp only [firstOf, place, Int64.lt_iff_toInt_lt, hzero]
  split
  · rename_i hstart
    rw [toInt_max, toInt_add_negative (by omega) hstart, hlen, hzero]
  · omega

theorem toInt_lastOf : (lastOf (.ofNat length) stop).toInt = min (place length stop) (length - 1) := by
  have hlen := Int64.toInt_ofNat_of_lt h
  have hzero : (0 : Int64).toInt = 0 := rfl
  simp only [lastOf, place, Int64.lt_iff_toInt_lt, hzero]
  split
  · rename_i hstop
    rw [toInt_add_negative (by omega) hstop, hlen]
    omega
  · rw [toInt_min, toInt_sub_one (by omega), hlen]

/-- A range is of positions in the sequence, from the first end or the head to the last end or the tail; it
is empty when there are none. -/
theorem bounds_cases :
    (∃ first last : Nat, bounds length start stop = some (first, last) ∧ first ≤ last ∧ last < length ∧
      (first : Int) = max (place length start) 0 ∧ (last : Int) = min (place length stop) (length - 1)) ∨
    bounds length start stop = none ∧
      min (place length stop) (length - 1) < max (place length start) 0 := by
  have hlen := Int64.toInt_ofNat_of_lt h
  have hfirst := toInt_firstOf start h
  have hlast := toInt_lastOf stop h
  rw [bounds_eq]
  split
  · exact .inr ⟨rfl, by omega⟩
  · simp only [Int64.lt_iff_toInt_lt, Int64.le_iff_toInt_le, hlen, hfirst, hlast]
    split
    · exact .inr ⟨rfl, by omega⟩
    · refine .inl ⟨_, _, rfl, ?_⟩
      simp only [← Int64.toNat_toInt, hfirst, hlast]
      omega

theorem slice_eq {α : Type} {xs : List α} (hxs : xs.length = length) :
    slice xs start stop = between xs (place length start) (place length stop) := by
  rw [between_eq, slice, hxs]
  obtain ⟨first, last, hbounds, hle, hlt, hfirst, hlast⟩ | ⟨hbounds, hempty⟩ :=
    bounds_cases start stop h
  · rw [hbounds, List.drop_take, show (place length start).toNat = first by omega]
    apply List.take_eq_take_iff.mpr
    rw [List.length_drop]
    omega
  · rw [hbounds]
    apply (List.drop_eq_nil_iff.mpr ?_).symm
    rw [List.length_take]
    omega

/-- No step on the way to the bounds fails. -/
theorem checkedBounds_eq : checkedBounds length start stop = some (bounds length start stop) := by
  have hlen := Int64.toInt_ofNat_of_lt h
  have hfirst := toInt_firstOf start h
  have hlast := toInt_lastOf stop h
  have hlength : Text.int64OfInt? length = some (.ofNat length) :=
    Text.int64OfInt?_eq_some.mpr hlen
  have hnatural : 0 ≤ (Int64.ofNat length).toInt := by omega
  rw [checkedBounds, bounds_eq, hlength]
  split
  · rfl
  · simp only [checkedFirst_eq start hnatural, checkedLast_eq stop hnatural, Option.bind_eq_bind,
      Option.bind_some]
    split
    · rfl
    · rename_i hin
      simp only [not_or, Int64.not_lt, Int64.le_iff_toInt_le] at hin
      rw [natural?_eq (by omega), natural?_eq (by omega)]
      rfl

/-- No step on the way to the elements fails. -/
theorem checkedSlice_eq {α : Type} {xs : List α} (hxs : xs.length = length) :
    checkedSlice xs start stop = some (slice xs start stop) := by
  rw [checkedSlice, slice, hxs, checkedBounds_eq start stop h]
  obtain ⟨first, last, hbounds, hle, hlt, -, -⟩ | ⟨hbounds, -⟩ := bounds_cases start stop h
  · have hcount : last - first + 1 ≤ Text.maxUnsigned := by
      have : (2 : Nat) ^ 63 ≤ Text.maxUnsigned := by decide
      omega
    rw [hbounds]
    exact if_pos ⟨hle, hlt, hcount⟩
  · rw [hbounds]
    rfl

end Arithmetic

end Range

namespace Engine

variable {σ : Type} [Store σ] {α β : Type}

theorem inspect_found {e : Engine σ} {now : Nat} {region key : String} {entry : Entry}
    (found : (e.getEntry now region key).1 = some entry) {c : Contents β} {contents : β}
    (hof : c.of? entry.value = some contents) (absent : α) (read : β → α) :
    (e.inspect now region key c absent read).1 = .ok (read contents) := by
  have hget : e.getEntry now region key = (some entry, (e.getEntry now region key).2) :=
    Prod.ext found rfl
  rw [inspect, hget]
  simp only [hof]

/-- A list or a sorted set of fewer than two to the 63rd elements answers a range, whatever its ends are,
with the elements from the first position to the last one, in order; taking them needs no number of more than
64 bits and no position outside the sequence. -/
theorem range_exact (e : Engine σ) (now : Nat) (region key : String) (start stop : Int64) {entry : Entry}
    (found : (e.getEntry now region key).1 = some entry) :
    (∀ xs : List String, entry.value = .list xs → xs.length < 2 ^ 63 →
      let asked := Range.between xs (Range.place xs.length start) (Range.place xs.length stop)
      (e.listRange now region key start stop).1 = .ok asked ∧
        Range.checkedSlice xs start stop = some asked) ∧
    ∀ z : SortedSet, entry.value = .sortedSet z → z.size < 2 ^ 63 →
      let asked := Range.between z.toList (Range.place z.size start) (Range.place z.size stop)
      (e.sortedRange now region key start stop).1 = .ok asked ∧
        Range.checkedSlice z.toList start stop = some asked := by
  refine ⟨?_, ?_⟩
  · intro xs hvalue hlength asked
    have hslice : Range.slice xs start stop = asked := Range.slice_eq start stop hlength rfl
    have hof : Contents.list.of? entry.value = some xs := by rw [hvalue]; rfl
    refine ⟨?_, ?_⟩
    · rw [listRange, inspect_found found hof, hslice]
    · rw [Range.checkedSlice_eq start stop hlength rfl, hslice]
  · intro z hvalue hlength asked
    have hsize : z.toList.length = z.size := Std.ExtTreeSet.length_toList
    have hslice : Range.slice z.toList start stop = asked := Range.slice_eq start stop hlength hsize
    have hof : Contents.sortedSet.of? entry.value = some z := by rw [hvalue]; rfl
    refine ⟨?_, ?_⟩
    · rw [sortedRange, inspect_found found hof, hslice]
    · rw [Range.checkedSlice_eq start stop hlength hsize, hslice]

/-- The last two of three elements, and all but the last of two members, asked for with the greatest and
the least of ends. -/
theorem range_exact_extremes :
    let z := SortedSet.ofList [⟨"m", .zero⟩, ⟨"k", .zero⟩]
    let e := Engine.fresh ((Table.empty.save ⟨"main", "l", .list ["a", "b", "c"], 5, 5, none, false⟩).save
      ⟨"main", "z", .sortedSet z, 6, 6, none, false⟩) 0 "main"
    (e.getEntry 7 "main" "l").1 = some ⟨"main", "l", .list ["a", "b", "c"], 5, 7, none, false⟩ ∧
      (e.getEntry 7 "main" "z").1 = some ⟨"main", "z", .sortedSet z, 6, 7, none, false⟩ ∧
      z.size < 2 ^ 63 ∧
      (e.listRange 7 "main" "l" (-2) Int64.maxValue).1 = .ok ["b", "c"] ∧
      Range.checkedSlice ["a", "b", "c"] (-2) Int64.maxValue = some ["b", "c"] ∧
      (e.sortedRange 7 "main" "z" Int64.minValue (-2)).1 = .ok [⟨"k", .zero⟩] := by
  intro z e
  have hsize : z.size < 2 ^ 63 := by decide +kernel
  have hlist : (e.getEntry 7 "main" "l").1 =
      some ⟨"main", "l", .list ["a", "b", "c"], 5, 7, none, false⟩ := by decide +kernel
  have hset : (e.getEntry 7 "main" "z").1 =
      some ⟨"main", "z", .sortedSet z, 6, 7, none, false⟩ := by decide +kernel
  obtain ⟨hreply, hchecked⟩ := (range_exact e 7 "main" "l" (-2) Int64.maxValue hlist).1 _ rfl (by decide)
  obtain ⟨hranked, -⟩ := (range_exact e 7 "main" "z" Int64.minValue (-2) hset).2 _ rfl hsize
  exact ⟨hlist, hset, hsize, hreply, hchecked, hranked.trans (by decide +kernel)⟩

end Engine
end TierCache
