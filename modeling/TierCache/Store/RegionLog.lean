import Std.Data.ExtTreeMap
import TierCache.Entry
import TierCache.Store.Directory
import TierCache.Store.FileName
import TierCache.Text.Lines

/-!
The log of one region: a file of JSON lines, each putting an entry under its key or deleting a key.
The index is what replaying the file gives. When most records are dead the file is rewritten with
one record for each live entry.
-/
namespace TierCache
open Std Json

inductive LogRecord
  | put (entry : Entry)
  | delete (key : String)
  deriving DecidableEq

namespace LogRecord

def toJson : LogRecord → Json
  | put entry => .obj [("op", .str "put"), ("entry", entry.toJson)]
  | delete key => .obj [("op", .str "delete"), ("key", .str key)]

/-- What a record may be written as. -/
inductive Written : LogRecord → Json → Prop
  | put {e : Entry} {entry : Json} (stored : e.Written entry) :
      Written (put e) (.obj [("op", .str "put"), ("entry", entry)])
  | delete (key : String) : Written (delete key) (delete key).toJson

theorem written_toJson (r : LogRecord) : r.Written r.toJson := by
  cases r with
  | put e => exact .put e.written_toJson
  | delete key => exact .delete key

/-- The line of a record, with its end. -/
def line (r : LogRecord) : ByteArray := (r.toJson.render ++ "\n").toUTF8

/-- The members besides those named `op`, and the first of these. -/
def splitOp : List (Option String × Raw) → Option Raw × List (Option String × Raw)
  | [] => (none, [])
  | (k, v) :: rest =>
    let (op, others) := splitOp rest
    if k = some "op" then (some v, others) else (op, (k, v) :: others)

/-- What a record holds besides its kind. -/
def ofBody (room : Nat) (op : Raw) (body : Raw) : Except Fault LogRecord := do
  let kind ← op.string
  if kind = "put" then
    match ← body.record ["entry"] 1 with
    | [entry] => return put (← Raw.needed (Entry.ofRaw (room - 1)) entry)
    | _ => .error .mismatched
  else if kind = "delete" then
    match ← body.record ["key"] 1 with
    | [key] => return delete (← Raw.needed Raw.string key)
    | _ => .error .mismatched
  else .error .mismatched

/-- A record: an object that names its kind once, or an array that names it first. All of its text
has to be usable, unknown members too. -/
def ofRaw (v : Raw) : Except Fault LogRecord :=
  if (v.value? Raw.maxDepth).isNone then .error .malformed
  else match v with
    | .obj members =>
      if 1 < members.countP (·.1 = some "op") then .error .mismatched
      else match splitOp members with
        | (some op, others) => ofBody Raw.maxDepth op (.obj others)
        | (none, _) => .error .mismatched
    | .arr (op :: rest) => ofBody Raw.maxDepth op (.arr rest)
    | _ => .error .mismatched

/-- The record on a line; none when it cannot be read. -/
def ofLine? (line : List Char) : Option LogRecord := (ofRaw (Raw.ofChars line)).toOption

/-- What the record does to the entries by key. -/
def apply (index : ExtTreeMap String Entry) : LogRecord → ExtTreeMap String Entry
  | put entry => index.insert entry.key entry
  | delete key => index.erase key

end LogRecord

/-- The readable records of a text. Lines that hold none, such as the last line of a file whose
writing was cut short, are passed over. -/
def LogRecord.ofText (cs : List Char) : List LogRecord :=
  ((Text.lines cs).filter (!Text.isBlankLine ·)).filterMap LogRecord.ofLine?

/-- The entries that a run of records leaves. -/
def LogRecord.replay (rs : List LogRecord) : ExtTreeMap String Entry := rs.foldl LogRecord.apply ∅

structure RegionLog where
  /-- The name of the file. -/
  name : String
  /-- The serial number of the open file. -/
  serial : Nat
  index : ExtTreeMap String Entry
  /-- The number of records in the file. -/
  records : Nat

namespace RegionLog

/-- Below this number of records a file is never rewritten. -/
def minRewrite : Nat := 1024

/-- The text of a file, empty if there is none. -/
def contents (d : Directory) (name : String) : Except CacheError (List Char) :=
  match d.read name with
  | .error e => .error e
  | .ok none => .ok []
  | .ok (some bytes) => match String.fromUTF8? bytes with
    | some s => .ok s.toList
    | none => .error (.ofSystem "stream did not contain valid UTF-8")

/-- Opens a log and replays it. A last line without its end gets one, so that the next record
starts a line of its own. -/
def openFile (d : Directory) (name : String) : Except CacheError RegionLog × Directory :=
  match contents d name with
  | .error e => (.error e, d)
  | .ok text =>
    let records := LogRecord.ofText text
    match d.openAppend name with
    | (.error e, d) => (.error e, d)
    | (.ok serial, d) =>
      let torn : Bool := match text.getLast? with
        | some c => c ≠ '\n'
        | none => false
      (.ok ⟨name, serial, LogRecord.replay records, records.length⟩,
        if torn then d.append name serial "\n".toUTF8 else d)

/-- Writes a record at the end of the file and applies it. -/
def append (l : RegionLog) (d : Directory) (r : LogRecord) : RegionLog × Directory :=
  ({ l with index := r.apply l.index, records := l.records + 1 },
    d.append l.name l.serial r.line)

/-- Whether dead records dominate. -/
def needsRewrite (l : RegionLog) : Bool :=
  minRewrite ≤ l.records && l.index.size * 2 < l.records

/-- The text of a file with one record for each live entry. -/
def compacted (l : RegionLog) : ByteArray :=
  l.index.values.foldl (fun bytes e => bytes ++ (LogRecord.put e).line) .empty

/-- Writes the live entries to a file beside the log and gives it the log's name. -/
def rewrite (l : RegionLog) (d : Directory) : Except CacheError RegionLog × Directory :=
  let beside := FileName.rewritten l.name
  match d.write beside l.compacted with
  | (.error e, d) => (.error e, d)
  | (.ok (), d) => match d.rename beside l.name with
    | (.error e, d) => (.error e, d)
    | (.ok (), d) => match d.openAppend l.name with
      | (.error e, d) => (.error e, d)
      | (.ok serial, d) => (.ok { l with serial, records := l.index.size }, d)

/-- Rewrites the file when dead records dominate. The records are in the file already, so a rewrite
that fails leaves the log as it was. -/
def tidy (l : RegionLog) (d : Directory) : RegionLog × Directory :=
  if l.needsRewrite then
    match l.rewrite d with
    | (.ok l, d) => (l, d)
    | (.error _, d) => (l, d)
  else (l, d)

def put (l : RegionLog) (d : Directory) (e : Entry) : RegionLog × Directory :=
  let (l, d) := l.append d (.put e)
  l.tidy d

/-- Removes a key. True when it was there; nothing is written otherwise. -/
def remove (l : RegionLog) (d : Directory) (key : String) : Bool × RegionLog × Directory :=
  if l.index.contains key then
    let (l, d) := l.append d (.delete key)
    (true, l.tidy d)
  else (false, l, d)

end RegionLog
end TierCache
