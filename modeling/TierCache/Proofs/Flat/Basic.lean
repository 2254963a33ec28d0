import TierCache.Proofs.Engine.Operation
import TierCache.RowId

/-!
The cache without tiers: one table of rows. It is what an engine is measured by, so it says in the
plainest way what each operation answers, changes and tells.
-/
namespace TierCache
open Std

namespace Row

/-- A row is there until its moment of expiry. -/
def isVisible (r : Row) (now : Nat) : Bool :=
  match r.expiresAt with
  | some t => now < t
  | none => true

/-- The whole seconds left: -1 without an expiry, -2 when less than one second is left. -/
def secondsLeft (r : Row) (now : Nat) : Int :=
  match r.expiresAt with
  | none => -1
  | some t => if 1000 ≤ t - now then ((t - now) / 1000 : Nat) else -2

end Row

/-- What a cache tells of its changes, times of use and places in memory aside. -/
inductive Notice
  | set (region key : String) (value : Value) (expiresAt : Option Nat)
  | delete (region key : String)
  | expire (region key : String) (seconds : Int)
  | deleteRegion (region : String)
  | change (region key : String) (kind : ChangeKind)
  deriving DecidableEq

def Mutation.notice : Mutation → Notice
  | .set e => .set e.region e.key e.value e.expiresAt
  | .delete region key => .delete region key
  | .expire region key seconds => .expire region key seconds
  | .deleteRegion region => .deleteRegion region

def Signal.notice : Signal → Notice
  | .mutation m => m.notice
  | .change region key kind => .change region key kind

structure Flat where
  rows : ExtTreeMap RowId Row
  defaultRegion : String
  hits : Nat
  misses : Nat
  told : List Notice

namespace Flat

def empty (defaultRegion : String) : Flat := ⟨∅, defaultRegion, 0, 0, []⟩

def tell (f : Flat) (notices : List Notice) : Flat := { f with told := f.told ++ notices }

/-- Puts a row in its place. -/
def place (f : Flat) (region key : String) (row : Row) : Flat :=
  { f with rows := f.rows.insert ⟨region, key⟩ row }

def erase (f : Flat) (region key : String) : Flat := { f with rows := f.rows.erase ⟨region, key⟩ }

/-- Keeps the rows that pass a test. -/
def keep (f : Flat) (stays : RowId → Row → Bool) : Flat := { f with rows := f.rows.filter stays }

def row? (f : Flat) (region key : String) : Option Row := f.rows[RowId.mk region key]?

def visible? (f : Flat) (now : Nat) (region key : String) : Option Row :=
  (f.row? region key).filter (·.isVisible now)

/-- The row as it comes to stand: in the place of another, visible or not, it keeps the time of
creation. -/
def succeed (f : Flat) (region key : String) (row : Row) : Row :=
  { row with createdAt := ((f.row? region key).map (·.createdAt)).getD row.createdAt }

def write (f : Flat) (now : Nat) (region key : String) (value : Value) (expiresAt : Option Nat) :
    Flat :=
  (f.place region key (f.succeed region key ⟨value, now, expiresAt⟩)).tell
    [.set region key value expiresAt, .change region key .set]

/-- Removes rows, visible or not, and counts those that were there. -/
def delete (f : Flat) (region : String) : List String → Nat × Flat
  | [] => (0, f)
  | key :: rest =>
    if f.rows.contains ⟨region, key⟩ then
      let (n, f) := delete ((f.erase region key).tell
        [.delete region key, .change region key .delete]) region rest
      (n + 1, f)
    else delete f region rest

def get (f : Flat) (now : Nat) (region key : String) : Option String × Flat :=
  match f.visible? now region key with
  | some ⟨.string text, _, _⟩ => (some text, { f with hits := f.hits + 1 })
  | _ => (none, { f with misses := f.misses + 1 })

/-- The keys of the visible rows of a region that match a pattern, in order. -/
def keys (f : Flat) (now : Nat) (region pattern : String) : List String :=
  (f.rows.toList.filter fun (id, row) =>
    id.region = region && row.isVisible now && Glob.accepts pattern id.key).map (·.1.key)

def expire (f : Flat) (now : Nat) (region key : String) (seconds : Int) :
    Except CacheError Bool × Flat :=
  if seconds ≤ 0 then
    let (n, f) := f.delete region [key]
    (.ok (0 < n), f)
  else match f.visible? now region key with
    | none => (.ok false, f)
    | some row =>
      let expiresAt := some (Engine.secondsAfter now seconds.toNat)
      (.ok true, (f.place region key { row with expiresAt }).tell
        [.expire region key seconds, .change region key .expire])

def persist (f : Flat) (now : Nat) (region key : String) : Except CacheError Bool × Flat :=
  match f.visible? now region key with
  | none => (.ok false, f)
  | some row =>
    (.ok true, (f.place region key { row with expiresAt := none }).tell
      [.set region key row.value none, .change region key .persist])

def deleteRegion (f : Flat) (region : String) : Except CacheError Unit × Flat :=
  if region = f.defaultRegion then (.error (.defaultRegion region), f)
  else (.ok (), (f.keep fun id _ => id.region ≠ region).tell
    [.deleteRegion region, .change region "*" .deleteRegion])

/-- Removes the rows that are not visible and counts them. -/
def sweep (f : Flat) (now : Nat) : Nat × Flat :=
  let swept := f.keep fun _ row => row.isVisible now
  (f.rows.size - swept.rows.size, swept)

/-- The regions that have a row, and the default region, in order. -/
def regionNames (f : Flat) : List String :=
  (ExtTreeSet.ofList (f.defaultRegion :: f.rows.keys.map (·.region)) : ExtTreeSet String).toList

/-- The number of rows of a region. -/
def count (f : Flat) (region : String) : Nat := (f.rows.filter fun id _ => id.region = region).size

/-! ### Contents -/

/-- Writes a value back; an empty container is deleted instead. -/
def writeBack (f : Flat) (now : Nat) (region key : String) (value : Value)
    (expiresAt : Option Nat) : Flat :=
  if value.isEmptyContainer then (f.delete region [key]).2
  else f.write now region key value expiresAt

/-- Transforms a value that is there or stands for an absent one. -/
def edit {α β : Type} (f : Flat) (now : Nat) (region key : String) (c : Engine.Contents β)
    (change : β → Except CacheError (Edit α β)) (value : Value) (expiresAt : Option Nat) :
    Except CacheError α × Flat :=
  match c.of? value with
  | none => (.error .wrongType, f)
  | some contents => match change contents with
    | .error err => (.error err, f)
    | .ok edit =>
      (.ok edit.result,
        if edit.changed then f.writeBack now region key (c.wrap edit.after) expiresAt else f)

def run {α : Type} (f : Flat) (now : Nat) (region key : String) :
    Typed.Plan α → Except CacheError α × Flat
  | .refuse err => (.error err, f)
  | .upsert c change => match f.visible? now region key with
    | some row => f.edit now region key c change row.value row.expiresAt
    | none => f.edit now region key c change (.empty c.dataType) none
  | .update c absent change => match f.visible? now region key with
    | some row => f.edit now region key c (fun b => .ok (change b)) row.value row.expiresAt
    | none => (.ok absent, f)
  | .inspect c absent read => match f.visible? now region key with
    | some row => match c.of? row.value with
      | some contents => (.ok (read contents), f)
      | none => (.error .wrongType, f)
    | none => (.ok absent, f)

def perform {α : Type} (f : Flat) (now : Nat) : Operation α → α × Flat
  | .setValue region key value expiresAt => (.ok (), f.write now region key value expiresAt)
  | .read region key => (f.visible? now region key, f)
  | .get region key => f.get now region key
  | .countLive region keys => (keys.countP fun key => (f.visible? now region key).isSome, f)
  | .ttl region key => ((f.visible? now region key).elim (-2) (·.secondsLeft now), f)
  | .typeOf region key => ((f.visible? now region key).map (·.value.dataType), f)
  | .keys region pattern => (f.keys now region pattern, f)
  | .scan region cursor pattern count => (Engine.page (f.keys now region pattern) cursor count, f)
  | .expire region key seconds => f.expire now region key seconds
  | .persist region key => f.persist now region key
  | .delete region keys => f.delete region keys
  | .deleteRegion region => f.deleteRegion region
  | .sweep => f.sweep now
  | .prime => (.ok (f.keep fun _ row => row.isVisible now).rows.size, f)
  | .regionNames => (f.regionNames, f)
  | .regionCounts region => ((f.count region, f.count region), f)
  | .knownCount => (f.rows.size, f)
  | .lookups => ((f.hits, f.misses), f)
  | .typed region key op => f.run now region key op.plan

def performAll (f : Flat) (calls : List Call) : Flat :=
  calls.foldl (fun f c => (f.perform c.now c.operation).2) f

end Flat
end TierCache
