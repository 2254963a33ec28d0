import Std.Data.ExtTreeMap
import TierCache.Error

/-!
One directory of a file system, with what the region logs need of it. A file keeps its serial number
until its name is removed or taken by another file, so an open file is a name and a serial: once the
name no longer leads to it, what is written to it is lost to everyone else.
-/
namespace TierCache
open Std

inductive Node
  | file (serial : Nat) (bytes : ByteArray)
  | directory

/-- Whether the directory is there, missing, or its name taken by a plain file. -/
inductive Presence
  | present
  | missing
  | blocked
  deriving DecidableEq, Repr

structure Directory where
  presence : Presence
  nodes : ExtTreeMap String Node
  /-- The serial number of the next new file. -/
  next : Nat

namespace Directory

def missing : Directory := ⟨.missing, ∅, 0⟩

def empty : Directory := ⟨.present, ∅, 0⟩

/-- Makes the directory unless it is there. -/
def create (d : Directory) : Except CacheError Unit × Directory :=
  match d.presence with
  | .present => (.ok (), d)
  | .missing => (.ok (), { d with presence := .present })
  | .blocked => (.error (.store "cannot create the directory"), d)

/-- The names in the directory, in order. -/
def names (d : Directory) : Except CacheError (List String) :=
  if d.presence = .present then .ok d.nodes.keys else .error (.ofSystem "no such directory")

/-- The contents of a file, none when there is no such name. -/
def read (d : Directory) (name : String) : Except CacheError (Option ByteArray) :=
  match d.nodes[name]? with
  | some (.file _ bytes) => .ok (some bytes)
  | some .directory => .error (.ofSystem "is a directory")
  | none => .ok none

/-- Opens a file to write at its end, made empty if there is none. Gives its serial number. -/
def openAppend (d : Directory) (name : String) : Except CacheError Nat × Directory :=
  match d.presence, d.nodes[name]? with
  | .present, some (.file serial _) => (.ok serial, d)
  | .present, none =>
    (.ok d.next, { d with nodes := d.nodes.insert name (.file d.next .empty), next := d.next + 1 })
  | .present, some .directory => (.error (.ofSystem "is a directory"), d)
  | _, _ => (.error (.ofSystem "no such directory"), d)

/-- Writes at the end of the open file. -/
def append (d : Directory) (name : String) (serial : Nat) (bytes : ByteArray) : Directory :=
  match d.nodes[name]? with
  | some (.file s old) =>
    if s = serial then { d with nodes := d.nodes.insert name (.file s (old ++ bytes)) } else d
  | _ => d

/-- Writes a whole file, in place of what it held. -/
def write (d : Directory) (name : String) (bytes : ByteArray) :
    Except CacheError Unit × Directory :=
  match d.presence, d.nodes[name]? with
  | .present, some (.file serial _) =>
    (.ok (), { d with nodes := d.nodes.insert name (.file serial bytes) })
  | .present, none =>
    (.ok (), { d with nodes := d.nodes.insert name (.file d.next bytes), next := d.next + 1 })
  | .present, some .directory => (.error (.ofSystem "is a directory"), d)
  | _, _ => (.error (.ofSystem "no such directory"), d)

/-- Gives a file another name, in place of the file that had it. -/
def rename (d : Directory) (source target : String) : Except CacheError Unit × Directory :=
  match d.nodes[source]?, d.nodes[target]? with
  | some (.file _ _), some .directory => (.error (.ofSystem "is a directory"), d)
  | some node, _ => (.ok (), { d with nodes := (d.nodes.erase source).insert target node })
  | none, _ => (.error (.ofSystem "no such file"), d)

/-- Removes a file. -/
def remove (d : Directory) (name : String) : Except CacheError Unit × Directory :=
  match d.nodes[name]? with
  | some (.file _ _) => (.ok (), { d with nodes := d.nodes.erase name })
  | some .directory => (.error (.ofSystem "is a directory"), d)
  | none => (.error (.ofSystem "no such file"), d)

/-- Makes a directory inside, unless the name is taken. -/
def makeDirectory (d : Directory) (name : String) : Directory :=
  if d.presence = .present ∧ !d.nodes.contains name then
    { d with nodes := d.nodes.insert name .directory }
  else d

/-- A plain file in place of the directory and all in it. -/
def block (d : Directory) : Directory := { d with presence := .blocked, nodes := ∅ }

end Directory
end TierCache
