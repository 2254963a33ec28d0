import TierCache.RowId
import TierCache.Store.Basic
import TierCache.Store.RegionLog

/-!
A store in a directory, one log for each region. Reads are answered from the logs' indexes alone; a
region's log is opened when the store is made ready or at the first write to the region.
-/
namespace TierCache
open Std

structure LogStore where
  directory : Directory
  logs : ExtTreeMap String RegionLog

namespace LogStore

/-- A store over a directory, none of whose logs is open. -/
def ofDirectory (d : Directory) : LogStore := ⟨d, ∅⟩

/-- Opens the logs among the names, up to the first that cannot be opened. -/
def openAll (s : LogStore) : List String → Except CacheError Unit × LogStore
  | [] => (.ok (), s)
  | name :: rest => match FileName.region? name with
    | none => openAll s rest
    | some region => match RegionLog.openFile s.directory name with
      | (.error e, d) => (.error e, { s with directory := d })
      | (.ok log, d) =>
        let (log, d) := log.tidy d
        openAll ⟨d, s.logs.insert region log⟩ rest

/-- Makes the directory if need be and opens the logs in it. -/
def load (s : LogStore) : Except CacheError Unit × LogStore :=
  match s.directory.create with
  | (.error e, d) => (.error e, { s with directory := d })
  | (.ok (), d) => match d.names with
    | .error e => (.error e, { s with directory := d })
    | .ok names => openAll { s with directory := d } names

/-- The entries of a region by key. -/
def index (s : LogStore) (region : String) : ExtTreeMap String Entry :=
  match s.logs[region]? with
  | some log => log.index
  | none => ∅

/-- The log of a region, opened if need be. -/
def logFor (s : LogStore) (region : String) : Except CacheError RegionLog × LogStore :=
  match s.logs[region]? with
  | some log => (.ok log, s)
  | none => match RegionLog.openFile s.directory (FileName.ofRegion region) with
    | (.error e, d) => (.error e, { s with directory := d })
    | (.ok log, d) => (.ok log, ⟨d, s.logs.insert region log⟩)

/-- The store after a write to one log. -/
def update (s : LogStore) (region : String) : RegionLog × Directory → LogStore
  | (log, d) => ⟨d, s.logs.insert region log⟩

def save (s : LogStore) (e : Entry) : Except CacheError Unit × LogStore :=
  match s.logFor e.region with
  | (.error err, s) => (.error err, s)
  | (.ok log, s) => (.ok (), s.update e.region (log.put s.directory e))

def erase (s : LogStore) (region key : String) : LogStore :=
  match s.logs[region]? with
  | some log => s.update region (log.remove s.directory key).2
  | none => s

/-- Forgets a region and removes its file. -/
def eraseRegion (s : LogStore) (region : String) : Except CacheError Unit × LogStore :=
  match s.logs[region]? with
  | none => (.ok (), s)
  | some log =>
    let s := { s with logs := s.logs.erase region }
    if s.directory.nodes.contains log.name then
      let (result, d) := s.directory.remove log.name
      (result, { s with directory := d })
    else (.ok (), s)

def setExpiry (s : LogStore) (region key : String) (expiresAt : Option Nat) : LogStore :=
  match s.logs[region]? with
  | none => s
  | some log => match log.index[key]? with
    | some e => s.update region (log.put s.directory { e with expiresAt })
    | none => s

/-- Removes the keys from a region and counts those that were there. -/
def eraseKeys (s : LogStore) (region : String) : List String → Nat × LogStore
  | [] => (0, s)
  | key :: rest => match s.logs[region]? with
    | none => (0, s)
    | some log =>
      let (was, after) := log.remove s.directory key
      let (n, s) := eraseKeys (s.update region after) region rest
      ((if was then 1 else 0) + n, s)

/-- The keys of a region that are expired at a time. -/
def expiredKeys (s : LogStore) (region : String) (now : Nat) : List String :=
  ((s.index region).toList.filter fun row => row.2.isExpired now).map fun row => row.2.key

def eraseExpired (s : LogStore) (now : Nat) : List String → Nat × LogStore
  | [] => (0, s)
  | region :: rest =>
    let (n, s) := s.eraseKeys region (s.expiredKeys region now)
    let (m, s) := s.eraseExpired now rest
    (n + m, s)

/-- All entries, by their own region and key. -/
def entries (s : LogStore) : List Entry :=
  (s.logs.toList.flatMap fun (_, log) => log.index.values).mergeSort fun a b =>
    (compare (RowId.mk a.region a.key) (RowId.mk b.region b.key)).isLE

instance : Store LogStore where
  init s := s.load
  save e s := s.save e
  load region key s := (.ok (s.index region)[key]?, s)
  loadAll s := (.ok s.entries, s)
  loadRegion region s := (.ok (s.index region).values, s)
  delete region key s := (.ok (), s.erase region key)
  deleteRegion region s := s.eraseRegion region
  updateExpiry region key expiresAt s := (.ok (), s.setExpiry region key expiresAt)
  deleteExpired now s :=
    let (n, s) := s.eraseExpired now s.logs.keys
    (.ok n, s)
  count region s := (.ok (s.index region).size, s)
  regions s := (.ok ((s.logs.toList.filter fun row => !row.2.index.isEmpty).map (·.1)), s)

end LogStore
end TierCache
