import Mathlib
import TierCache.Proofs.Json.Reread
import TierCache.Proofs.Replication.Event
import TierCache.Proofs.Store.LogText

/-!
What is stored and what is sent comes back as it was: entries and records of a log from their line,
and messages from their payload, those that someone else wrote among them.
-/
namespace TierCache
open Json Replication

namespace Replication

namespace Event

/-- The value of an event that was read is read again, as none where there is none. -/
theorem optional_anyValue {room : Nat} {v : Option Raw} {value : Option Json}
    (h : Raw.orElse none (Raw.optional (anyValue room)) v = .ok value) :
    Raw.optional (anyValue room) (written (value.getD .null)) = .ok value := by
  cases value with
  | none => rfl
  | some j =>
    obtain ⟨w, hnull, hread⟩ := Raw.eq_of_optional h j rfl
    have hvalue : w.value? room = some j := by
      unfold anyValue at hread
      split at hread
      · rename_i hfound
        cases hread
        exact hfound
      · cases hread
    have hagain := Raw.value?_written w hvalue
    have hwritten : written j ≠ .null := by
      intro heq
      rw [heq, Raw.value?] at hagain
      cases hagain
      exact hnull (Raw.eq_null_of_value? hvalue)
    rw [Option.getD_some, Raw.optional_of_ne_null hwritten, anyValue, hagain]
    rfl

theorem ofPayload_again {text : String} {e : Event} (h : ofPayload text = .ok e) :
    ofPayload e.payload = .ok e := by
  unfold ofPayload at h
  split at h
  · rename_i hraw
    cases h
    obtain ⟨found, -, hfields⟩ := ok_of_bind hraw
    split at hfields
    · obtain ⟨id, -, hfields⟩ := ok_of_bind hfields
      obtain ⟨kind, -, hfields⟩ := ok_of_bind hfields
      obtain ⟨region, -, hfields⟩ := ok_of_bind hfields
      obtain ⟨key, -, hfields⟩ := ok_of_bind hfields
      obtain ⟨value, hvalue, hfields⟩ := ok_of_bind hfields
      obtain ⟨dataType, -, hfields⟩ := ok_of_bind hfields
      obtain ⟨expiresAt, hexpiry, hfields⟩ := ok_of_bind hfields
      obtain ⟨timestamp, htimestamp, hfields⟩ := ok_of_bind hfields
      cases hfields
      refine ofPayload_payload (optional_anyValue hvalue) (fun t ht => ?_) ?_
      · obtain ⟨w, -, hread⟩ := Raw.eq_of_optional hexpiry t ht
        exact Raw.unsigned_le hread
      · obtain ⟨w, hread⟩ := Raw.eq_of_needed htimestamp
        exact Raw.unsigned_le hread
    · cases hfields
  · cases h

end Event

theorem Heartbeat.ofPayload_again {text : String} {h : Heartbeat} (hread : ofPayload text = .ok h) :
    ofPayload h.payload = .ok h := by
  unfold ofPayload at hread
  split at hread
  · rename_i hraw
    cases hread
    obtain ⟨found, -, hfields⟩ := ok_of_bind hraw
    split at hfields
    · obtain ⟨instanceId, -, hfields⟩ := ok_of_bind hfields
      obtain ⟨isPrimary, -, hfields⟩ := ok_of_bind hfields
      obtain ⟨timestamp, htimestamp, hfields⟩ := ok_of_bind hfields
      cases hfields
      obtain ⟨w, htime⟩ := Raw.eq_of_needed htimestamp
      exact ofPayload_payload (Raw.unsigned_le htime)
    · cases hfields
  · cases hread

end Replication

/-- The text of a value is one line. -/
theorem Json.lines_chars (j : Json) : Text.lines (j.chars ++ ['\n']) = [j.chars] :=
  Text.lines_closed (plain_chars j)

theorem Entry.ofText_written {e : Entry} (h : e.Storable) {j : Json} (hj : e.Written j) :
    Entry.ofText j.render = .ok e := by
  rw [Entry.ofText, Json.ofText_render, Entry.ofRaw_written h hj]

/-- The event that sets an entry tells who applies it the entry's key, value and expiry. -/
theorem Replication.Event.ofPayload_set {e : Entry} (h : e.Storable) {value : Json}
    (held : e.value.Written value) {now : Nat} (hnow : now ≤ Text.maxUnsigned) (id : String) :
    ∃ event, ofPayload (ofSet id now e value).payload = .ok event ∧ event.kind = .set ∧
      event.region = e.region ∧ event.key = e.key ∧ event.valueToSet = .ok e.value ∧
      event.expiresAt = e.expiresAt :=
  ⟨_, ofPayload_ofSet held h.expiresAt hnow id, rfl, rfl, rfl, valueToSet_ofSet h.value held id now,
    rfl⟩

/-- Entries and records of a log are written as lines that are read back as they were, in whatever
order the fields of a hash and the members of a set come; the event that sets an entry is applied with
the entry's key, value and expiry; and a message that was read, whoever wrote it, is read again from
its own payload. -/
theorem read_back :
    (∀ e : Entry, e.Storable → ∀ j, e.Written j →
      Text.lines (j.chars ++ ['\n']) = [j.chars] ∧ Entry.ofText j.render = .ok e) ∧
    (∀ r : LogRecord, r.Storable → ∀ j, r.Written j →
      Text.lines (j.chars ++ ['\n']) = [j.chars] ∧ LogRecord.ofLine? j.chars = some r) ∧
    (∀ (e : Entry) (id : String) (now : Nat), e.Storable → now ≤ Text.maxUnsigned →
      ∀ value, e.value.Written value →
        ∃ event, Event.ofPayload (Event.ofSet id now e value).payload = .ok event ∧
          event.kind = .set ∧ event.region = e.region ∧ event.key = e.key ∧
          event.valueToSet = .ok e.value ∧ event.expiresAt = e.expiresAt) ∧
    (∀ (text : String) (event : Event), Event.ofPayload text = .ok event →
      Event.ofPayload event.payload = .ok event) ∧
    ∀ (text : String) (beat : Heartbeat), Heartbeat.ofPayload text = .ok beat →
      Heartbeat.ofPayload beat.payload = .ok beat :=
  ⟨fun _ h j hj => ⟨lines_chars j, Entry.ofText_written h hj⟩,
    fun _ h j hj => ⟨lines_chars j, LogRecord.ofLine?_written h hj⟩,
    fun _ id _ h hnow _ held => Event.ofPayload_set h held hnow id,
    fun _ _ h => Event.ofPayload_again h,
    fun _ _ h => Heartbeat.ofPayload_again h⟩

/-- An entry with a line break in its key, minus zero for a score and times at both ends. -/
def ranked : Entry :=
  ⟨"r", "é\n", .sortedSet (SortedSet.empty.insert "m" ⟨0x8000000000000000⟩).2, 0, Text.maxUnsigned,
    some 7, true⟩

theorem storable_ranked : ranked.Storable where
  value := SortedSet.AllFinite.empty.insert "m" (by decide)
  createdAt := Nat.zero_le _
  lastAccessedAt := le_rfl
  expiresAt := by decide

/-- An entry with two fields, which are written in either order. -/
def paired : Entry :=
  ⟨"r", "k", .hash (.ofList [("a", "1"), ("b", "2")]), 1, 2, none, false⟩

theorem storable_paired : paired.Storable := ⟨trivial, by decide, by decide, nofun⟩

/-- The fields in the other order. -/
def swapped : Json :=
  .obj [("type", .str "HASH"), ("data", .obj [("b", .str "2"), ("a", .str "1")])]

theorem written_swapped : paired.value.Written swapped := by
  have hfields : (Std.ExtTreeMap.ofList [("a", "1"), ("b", "2")] compare).toList =
      [("a", "1"), ("b", "2")] := by
    decide +kernel
  exact .intro (@Value.Data.hash _ [("b", "2"), ("a", "1")] (hfields ▸ .swap _ _ _))

/-- An event that is no object, with a kind that is one, and a value whose members are out of order and
repeated. -/
def unusualEvent : String :=
  "[\"e\",\x7b\"SET\":null\x7d,\"r\",\"k\",\x7b\"b\":[],\"a\":[-0],\"b\":5\x7d,null,7,8]"

/-- A heartbeat with its members out of order and one that it does not need. -/
def unusualBeat : String :=
  " \x7b\"isPrimary\":true, \"timestamp\":7,\"more\":[], \"instanceId\":\"\\u00e9\"\x7d"

theorem read_back_unusual :
    ranked.Storable ∧ (LogRecord.put ranked).Storable ∧ paired.Storable ∧
      paired.value.Written swapped ∧
      Entry.ofText ranked.toJson.render = .ok ranked ∧
      LogRecord.ofLine? (LogRecord.put ranked).toJson.chars = some (.put ranked) ∧
      Entry.ofText (paired.record swapped).render = .ok paired ∧
      (∃ event, Event.ofPayload (Event.ofSet "e" 7 ranked ranked.value.toJson).payload = .ok event ∧
        event.valueToSet = .ok ranked.value) ∧
      (∃ event, Event.ofPayload (Event.ofSet "e" 7 paired swapped).payload = .ok event ∧
        event.valueToSet = .ok paired.value) ∧
      (∃ event, Event.ofPayload unusualEvent = .ok event ∧
        Event.ofPayload event.payload = .ok event) ∧
      ∃ beat, Heartbeat.ofPayload unusualBeat = .ok beat ∧
        Heartbeat.ofPayload beat.payload = .ok beat := by
  have hevent : Event.ofPayload unusualEvent = .ok ⟨"e", .set, "r", "k",
      some (.obj [("a", .arr [.float ⟨0x8000000000000000⟩]), ("b", .int 5)]), none, some 7, 8⟩ := by
    cbv
  have hbeat : Heartbeat.ofPayload unusualBeat = .ok ⟨"é", true, 7⟩ := by
    cbv
  obtain ⟨hentry, hrecord, hset, hagain, hbeats⟩ := read_back
  have hnow : 7 ≤ Text.maxUnsigned := by decide
  obtain ⟨event, hread, -, -, -, hvalue, -⟩ :=
    hset ranked "e" 7 storable_ranked hnow _ ranked.value.written_toJson
  obtain ⟨other, hother, -, -, -, hfields, -⟩ :=
    hset paired "e" 7 storable_paired hnow _ written_swapped
  exact ⟨storable_ranked, storable_ranked, storable_paired, written_swapped,
    (hentry ranked storable_ranked _ ranked.written_toJson).2,
    (hrecord (.put ranked) storable_ranked _ (LogRecord.put ranked).written_toJson).2,
    (hentry paired storable_paired _ (.intro written_swapped)).2,
    ⟨event, hread, hvalue⟩, ⟨other, hother, hfields⟩,
    ⟨_, hevent, hagain _ _ hevent⟩, ⟨_, hbeat, hbeats _ _ hbeat⟩⟩

end TierCache
