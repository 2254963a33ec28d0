import TierCache.Proofs.Json.Breaks
import TierCache.Proofs.Json.Plain
import TierCache.Proofs.Value.Record
import TierCache.Store.RegionLog

/-!
A record of a log is read back from its line, and from no part of it: a line that was cut short holds
none.
-/
namespace TierCache
open Std Json

/-! ### Entries -/

namespace Entry

/-- JSON can hold the entry: its scores are finite, and its times are unsigned integers of 64
bits. -/
structure Storable (e : Entry) : Prop where
  value : e.value.Encodable
  createdAt : e.createdAt ≤ Text.maxUnsigned
  lastAccessedAt : e.lastAccessedAt ≤ Text.maxUnsigned
  expiresAt : ∀ t ∈ e.expiresAt, t ≤ Text.maxUnsigned

variable {e : Entry} (h : e.Storable)
include h

/-- An entry is read back from any text of it. -/
theorem ofRaw_written {j : Json} (hj : e.Written j) (room : Nat) :
    Entry.ofRaw room (written j) = .ok e := by
  obtain ⟨held⟩ := hj
  rename_i value
  have hnodup : fields.Nodup := by decide
  have hrecord := @Raw.record_named [("region", written (.str e.region)),
    ("key", written (.str e.key)), ("value", written value),
    ("createdAt", written (.nat e.createdAt)), ("lastAccessedAt", written (.nat e.lastAccessedAt)),
    ("expiresAt", written (.opt .nat e.expiresAt)),
    ("residentInMemory", written (.bool e.resident))] hnodup 6
  refine (congrArg (· >>= _) hrecord).trans ?_
  simp only [bind, Except.bind, List.map, Raw.needed, Raw.orElse, Value.ofRaw_written h.value held,
    unsigned_written h.createdAt, unsigned_written h.lastAccessedAt, optional_unsigned h.expiresAt]
  rfl

theorem fits {j : Json} (hj : e.Written j) (room : Nat) : j.Fits (room + 4) := by
  obtain ⟨held⟩ := hj
  have htime {n : Nat} (hn : n ≤ Text.maxUnsigned) : (Json.nat n).Fits (room + 3) :=
    .int _ (by omega) (by omega)
  have hexpiry : (Json.opt .nat e.expiresAt).Fits (room + 3) := by
    cases ht : e.expiresAt with
    | none => exact .null _
    | some t => exact htime (h.expiresAt t ht)
  apply Fits.obj
  simp only [List.forall_mem_cons]
  exact ⟨.str _ _, .str _ _, held.fits room, htime h.createdAt, htime h.lastAccessedAt, hexpiry,
    .bool _ _, List.forall_mem_nil _⟩

end Entry

/-! ### Records -/

namespace LogRecord

/-- JSON can hold what the record puts. -/
def Storable : LogRecord → Prop
  | put e => e.Storable
  | delete _ => True

/-- The line of a record, without its end. -/
def text (r : LogRecord) : List Char := r.toJson.chars

theorem fits {r : LogRecord} (h : r.Storable) {j : Json} (hj : r.Written j) :
    j.Fits Raw.maxDepth := by
  cases hj with
  | put stored =>
    apply Fits.obj
    simp only [List.forall_mem_cons]
    exact ⟨.str _ _, Entry.fits h stored 122, List.forall_mem_nil _⟩
  | delete key =>
    apply Fits.obj
    simp only [List.forall_mem_cons]
    exact ⟨.str _ _, .str _ _, List.forall_mem_nil _⟩

/-- A record whose text is usable is read by its kind. -/
theorem ofRaw_of_op {op : Raw} {k : String} {v : Raw} (hk : k ≠ "op")
    (hsome : ((Raw.obj [(some "op", op), (some k, v)]).value? Raw.maxDepth).isSome) :
    ofRaw (.obj [(some "op", op), (some k, v)]) = ofBody Raw.maxDepth op (.obj [(some k, v)]) := by
  have hnone : ((Raw.obj [(some "op", op), (some k, v)]).value? Raw.maxDepth).isNone = false := by
    rw [← Option.not_isSome, hsome]
    rfl
  simp [ofRaw, hnone, splitOp, hk]

theorem ofRaw_written {r : LogRecord} (h : r.Storable) {j : Json} (hj : r.Written j) :
    ofRaw (written j) = .ok r := by
  have hsome := Option.isSome_of_eq_some (value?_tree faithful_floatNumeral (fits h hj))
  cases hj with
  | @put e entry stored =>
    have hread := Entry.ofRaw_written h stored (Raw.maxDepth - 1)
    refine (ofRaw_of_op (by decide) hsome).trans ?_
    have hbody : ofBody Raw.maxDepth (.str (some "put")) (.obj [(some "entry", written entry)]) =
        (Entry.ofRaw (Raw.maxDepth - 1) (written entry) >>= fun e => .ok (put e)) := rfl
    refine hbody.trans ?_
    rw [hread]
    rfl
  | delete key => exact ofRaw_of_op (by decide) hsome

/-- A record is read back from any line of it. -/
theorem ofLine?_written {r : LogRecord} (h : r.Storable) {j : Json} (hj : r.Written j) :
    ofLine? j.chars = some r := by
  have hchars : Raw.ofChars j.chars = written j := ofChars_chars _
  rw [ofLine?, hchars, ofRaw_written h hj]
  rfl

theorem ofLine?_text {r : LogRecord} (h : r.Storable) : ofLine? r.text = some r :=
  ofLine?_written h r.written_toJson

/-- A line that breaks off holds no record. -/
theorem ofLine?_torn {r : LogRecord} {front back : List Char} (h : r.text = front ++ back)
    (hback : back ≠ []) : ofLine? front = none := by
  by_cases hnum : ∃ n, Raw.ofChars front = .num n
  · obtain ⟨n, hn⟩ := hnum
    simp only [ofLine?, hn, ofRaw]
    split <;> rfl
  · have hbroken : (Raw.ofChars front).value? Raw.maxDepth = none := by
      rw [not_exists] at hnum
      cases r with
      | put e => exact value?_ofChars_prefix h hback _ hnum
      | delete key => exact value?_ofChars_prefix h hback _ hnum
    simp only [ofLine?, ofRaw, hbroken]
    rfl

end LogRecord
end TierCache
