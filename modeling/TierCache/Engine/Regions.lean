import TierCache.Engine.Keys

/-!
Operations on whole regions: deletion, the sweep of expired keys, priming from the store, counts.
-/
namespace TierCache
open Std

namespace Engine

variable {σ : Type} [Store σ]

/-- Forgets all keys of a region. -/
def clearRegion (e : Engine σ) (region : String) : Engine σ :=
  let s := e.regionD region
  { e.setRegion region .empty with resident := e.resident - s.memory.size }

/-- Deletes a region. The default region stays. Followers hear of it before the store is asked. -/
def deleteRegion (e : Engine σ) (region : String) : Except CacheError Unit × Engine σ :=
  if region = e.defaultRegion then (.error (.defaultRegion region), e)
  else
    let e := e.signal (.mutation (.deleteRegion region))
    match Store.deleteRegion region e.store with
    | (.error err, store) => (.error err, { e with store })
    | (.ok (), store) =>
      let e := { e with store }
      let e := if (e.region? region).isSome then e.clearRegion region else e
      (.ok (), e.signal (.change region "*" .deleteRegion))

/-- The keys without a live entry. -/
def filterDead (e : Engine σ) (now : Nat) (region : String) : List String → List String × Engine σ
  | [] => ([], e)
  | key :: rest =>
    let (found, e) := e.peek now region key
    let (keys, e) := filterDead e now region rest
    (if found.isSome then keys else key :: keys, e)

/-- Removes those of the keys that still have no live entry and counts the known ones. -/
def removeDead (e : Engine σ) (now : Nat) (region : String) : List String → Nat × Engine σ
  | [] => (0, e)
  | key :: rest => match e.peek now region key with
    | (some _, e) => removeDead e now region rest
    | (none, e) =>
      let (was, e) := e.removeKey region key
      let (n, e) := removeDead e now region rest
      ((if was then 1 else 0) + n, e)

/-- Removes the known keys of the regions that have no live entry, and counts them. -/
def sweepRegions (e : Engine σ) (now : Nat) : List String → Nat × Engine σ
  | [] => (0, e)
  | region :: rest =>
    let (dead, e) := e.filterDead now region (e.regionD region).known.toList
    let (n, e) := e.removeDead now region dead
    let (m, e) := sweepRegions e now rest
    (n + m, e)

/-- Removes expired keys from every tier and then expired rows from the store. Nobody is told.
Counts the keys that were known. -/
def sweep (e : Engine σ) (now : Nat) : Nat × Engine σ :=
  let (n, e) := e.sweepRegions now e.regions.keys
  let (_, store) := Store.deleteExpired now e.store
  (n, { e with store })

/-- Makes a row known and, if a slot is free, resident. -/
def primeEntry (e : Engine σ) (entry : Entry) : Engine σ :=
  let e := e.ensureRegion entry.region
  let s := e.regionD entry.region
  let e := e.setRegion entry.region { s with known := s.known.insert entry.key }
  match e.tryReserve with
  | (true, e) => (e.install entry.region { entry with resident := true } true).2
  | (false, e) => e

/-- Makes the live rows of the store known, and resident while slots are free. Counts them. -/
def prime (e : Engine σ) (now : Nat) : Except CacheError Nat × Engine σ :=
  match Store.loadAll e.store with
  | (.error err, store) => (.error err, { e with store })
  | (.ok entries, store) =>
    let live := entries.filter (!·.isExpired now)
    (.ok live.length, live.foldl primeEntry { e with store })

/-- The regions with a known key or a stored row, and the default region, in order. -/
def regionNames (e : Engine σ) : List String × Engine σ :=
  let known := (e.regions.toList.filter fun row => !row.2.known.isEmpty).map (·.1)
  let (stored, store) := Store.regions e.store
  let names := e.defaultRegion :: (known ++ stored.toOption.getD [])
  ((ExtTreeSet.ofList names : ExtTreeSet String).toList, { e with store })

/-- The counts of a region; a failing store counts nothing. -/
def regionCounts (e : Engine σ) (region : String) : RegionCounts × Engine σ :=
  let s := e.regionD region
  let (stored, store) := Store.count region e.store
  (⟨region, s.known.size, s.memory.size, stored.toOption.getD 0⟩, { e with store })

/-- The known keys of each region whose entry in memory is live. -/
def residentKeys (e : Engine σ) (now : Nat) : List (String × List String) × Engine σ :=
  let (names, e) := e.regionNames
  (names.map fun region =>
    let s := e.regionD region
    (region, s.known.toList.filter fun key => s.memory[key]?.any (!·.isExpired now)), e)

/-- The counts of several regions. -/
def allCounts (e : Engine σ) : List String → List RegionCounts × Engine σ
  | [] => ([], e)
  | region :: rest =>
    let (counts, e) := e.regionCounts region
    let (others, e) := allCounts e rest
    (counts :: others, e)

end Engine
end TierCache
