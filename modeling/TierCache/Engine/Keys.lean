import TierCache.Engine.Memory
import TierCache.Glob
import TierCache.Text.Integer

/-!
Operations on whole keys. Each is given the time at which it happens, in milliseconds.
-/
namespace TierCache
open Std

/-- The row of a key, if the store has one that is not expired. A failing store counts as having
none. -/
def loadLive {σ : Type} [Store σ] (now : Nat) (region key : String) (store : σ) :
    Option Entry × σ :=
  match Store.load region key store with
  | (.ok (some entry), store) => (if entry.isExpired now then none else some entry, store)
  | (.ok none, store) => (none, store)
  | (.error _, store) => (none, store)

namespace Region

/-- The live entry of a key, from memory or else from the store, without any effect on memory. -/
def peek {σ : Type} [Store σ] (s : Region) (now : Nat) (region key : String) (store : σ) :
    Option Entry × σ :=
  match s.memory[key]? with
  | some entry => (if entry.isExpired now then none else some entry, store)
  | none => loadLive now region key store

end Region

/-- One page of a scan: where the next one starts, zero at the end, and the keys. -/
structure Page where
  cursor : Nat
  keys : List String
  deriving DecidableEq, Repr

/-- How many keys of a region there are, in all, in memory and in the store. -/
structure RegionCounts where
  name : String
  total : Nat
  memory : Nat
  stored : Nat
  deriving DecidableEq, Repr

namespace Engine

variable {σ : Type} [Store σ]

/-- The live entry of a key in a region that may not exist. -/
def peek (e : Engine σ) (now : Nat) (region key : String) : Option Entry × Engine σ :=
  match e.region? region with
  | some s =>
    let (found, store) := s.peek now region key e.store
    (found, { e with store })
  | none =>
    let (found, store) := loadLive now region key e.store
    (found, { e with store })

/-! ### Writing -/

/-- The creation time of a key that is known, from memory or else from the store. -/
def creationTime (e : Engine σ) (region key : String) : Option Nat × Engine σ :=
  let s := e.regionD region
  if s.known.contains key then
    match s.memory[key]? with
    | some entry => (some entry.createdAt, e)
    | none => match Store.load region key e.store with
      | (.ok found, store) => (found.map (·.createdAt), { e with store })
      | (.error _, store) => (none, { e with store })
  else (none, e)

/-- Saves a row and, if it has a slot, puts it into memory. A slot that was claimed for it is given
back if the store fails. -/
def saveRow (e : Engine σ) (row : Entry) (hasSlot claimed : Bool) :
    Except CacheError Entry × Engine σ :=
  match Store.save row e.store with
  | (.error err, store) =>
    let e := { e with store }
    (.error err, if claimed then e.release else e)
  | (.ok (), store) =>
    let s := e.regionD row.region
    let e := { e with store }.setRegion row.region { s with known := s.known.insert row.key }
    if hasSlot then
      let (placed, e) := e.install row.region { row with resident := true } claimed
      (.ok { row with resident := placed }, e)
    else (.ok row, e)

/-- Writes an entry to the store and then into memory. A key that is known keeps its creation time.
The slot for a key that is not in memory is claimed first. -/
def writeThrough (e : Engine σ) (entry : Entry) : Except CacheError Entry × Engine σ :=
  let (created, e) := e.creationTime entry.region entry.key
  let wasResident := e.isResident entry.region entry.key
  let (hasSlot, e) := if wasResident then (true, e) else e.reserve
  e.saveRow { entry with createdAt := created.getD entry.createdAt, resident := false } hasSlot
    (hasSlot && !wasResident)

/-- Writes an entry and announces it. -/
def put (e : Engine σ) (entry : Entry) : Except CacheError Unit × Engine σ :=
  match (e.ensureRegion entry.region).writeThrough entry with
  | (.error err, e) => (.error err, e)
  | (.ok written, e) =>
    (.ok (), e.announce (.set written) written.region written.key .set)

/-- Stores a value of any type, in place of whatever the key held. -/
def setValue (e : Engine σ) (now : Nat) (region key : String) (value : Value)
    (expiresAt : Option Nat) : Except CacheError Unit × Engine σ :=
  e.put (.create now region key value expiresAt)

def set (e : Engine σ) (now : Nat) (region key text : String) (expiresAt : Option Nat) :
    Except CacheError Unit × Engine σ :=
  e.setValue now region key (.string text) expiresAt

/-! ### Reading -/

/-- The live entry of a key of a region. It becomes the most recently used one; an entry from the
store is put into memory if a slot is free. -/
def readEntry (e : Engine σ) (now : Nat) (region key : String) : Option Entry × Engine σ :=
  let s := e.regionD region
  match s.memory[key]? with
  | some entry =>
    if entry.isExpired now then (none, e)
    else
      let entry := entry.touch now
      (some entry, e.hold region key entry)
  | none => match loadLive now region key e.store with
    | (none, store) => (none, { e with store })
    | (some entry, store) =>
      let entry := { entry.touch now with resident := false }
      match { e with store }.tryReserve with
      | (true, e) =>
        let (placed, e) := e.install region { entry with resident := true } true
        (some { entry with resident := placed }, e)
      | (false, e) => (some entry, e)

/-- The live entry of a key. A region that does not exist comes into being only if the store has
the key. -/
def getEntry (e : Engine σ) (now : Nat) (region key : String) : Option Entry × Engine σ :=
  match e.region? region with
  | some _ => e.readEntry now region key
  | none => match loadLive now region key e.store with
    | (none, store) => (none, { e with store })
    | (some _, store) => ({ e with store }.ensureRegion region).readEntry now region key

/-- The text of a key; counts a hit, or a miss for a key that holds no text. -/
def get (e : Engine σ) (now : Nat) (region key : String) : Option String × Engine σ :=
  match e.getEntry now region key with
  | (some { value := .string text, .. }, e) => (some text, { e with stats := e.stats.hit })
  | (_, e) => (none, { e with stats := e.stats.miss })

/-- How many of the keys are known and live; a key given twice counts twice. -/
def countLive (e : Engine σ) (now : Nat) (region : String) : List String → Nat × Engine σ
  | [] => (0, e)
  | key :: rest =>
    if (e.regionD region).known.contains key then
      let (found, e) := e.peek now region key
      let (n, e) := countLive e now region rest
      ((if found.isSome then 1 else 0) + n, e)
    else countLive e now region rest

def exists? (e : Engine σ) (now : Nat) (region : String) (keys : List String) : Nat × Engine σ :=
  match e.region? region with
  | some _ => e.countLive now region keys
  | none => (0, e)

/-- The whole seconds a key has left: -1 without an expiry, -2 for a key that is absent or has less
than one second. -/
def ttl (e : Engine σ) (now : Nat) (region key : String) : Int × Engine σ :=
  let (found, e) := e.peek now region key
  (match found with
    | some entry => entry.secondsLeft now
    | none => -2, e)

def typeOf (e : Engine σ) (now : Nat) (region key : String) : Option DataType × Engine σ :=
  let (found, e) := e.peek now region key
  (found.map Entry.dataType, e)

/-- The live ones among the keys. -/
def filterLive (e : Engine σ) (now : Nat) (region : String) : List String → List String × Engine σ
  | [] => ([], e)
  | key :: rest =>
    let (found, e) := e.peek now region key
    let (keys, e) := filterLive e now region rest
    (if found.isSome then key :: keys else keys, e)

/-- The live keys of a region that match a pattern, in order. -/
def keys (e : Engine σ) (now : Nat) (region pattern : String) : List String × Engine σ :=
  match e.region? region with
  | some s => e.filterLive now region (s.known.toList.filter (Glob.accepts pattern ·))
  | none => ([], e)

/-- The part of a list that starts at a cursor and holds at least one of `count` elements. -/
def page (keys : List String) (cursor count : Nat) : Page :=
  let start := min cursor keys.length
  let stop := min (start + max count 1) keys.length
  ⟨if keys.length ≤ stop then 0 else stop, (keys.take stop).drop start⟩

/-- A page of the live keys that match a pattern. -/
def scan (e : Engine σ) (now : Nat) (region : String) (cursor : Nat) (pattern : String)
    (count : Nat) : Page × Engine σ :=
  let (keys, e) := e.keys now region pattern
  (page keys cursor count, e)

/-! ### Removing -/

/-- Removes a key from memory and store. True when it was known. A store that fails keeps its
row. -/
def removeKey (e : Engine σ) (region key : String) : Bool × Engine σ :=
  let s := e.regionD region
  let e := e.setRegion region
    ⟨s.known.erase key, s.memory.erase key, s.lru.remove key⟩
  let e := if s.memory.contains key then e.release else e
  let (_, store) := Store.delete region key e.store
  (s.known.contains key, { e with store })

/-- Removes keys one after another and counts those that were known. -/
def removeKeys (e : Engine σ) (region : String) : List String → Nat × Engine σ
  | [] => (0, e)
  | key :: rest => match e.removeKey region key with
    | (true, e) =>
      let (n, e) := removeKeys (e.announce (.delete region key) region key .delete) region rest
      (n + 1, e)
    | (false, e) => removeKeys e region rest

def delete (e : Engine σ) (region : String) (keys : List String) : Nat × Engine σ :=
  match e.region? region with
  | some _ => e.removeKeys region keys
  | none => (0, e)

/-! ### Expiry -/

/-- The moment that lies some seconds after `now`. -/
def secondsAfter (now : Nat) (seconds : Nat) : Nat :=
  Text.addCapped now (Text.mulCapped seconds 1000)

/-- Sets or clears the expiry of the copy in memory. -/
def setResidentExpiry (e : Engine σ) (region key : String) (expiresAt : Option Nat) : Engine σ :=
  let s := e.regionD region
  match s.memory[key]? with
  | some entry =>
    e.setRegion region { s with memory := s.memory.insert key { entry with expiresAt } }
  | none => e

/-- Lets a key expire after some seconds; zero or less removes it. False for an absent key. -/
def expire (e : Engine σ) (now : Nat) (region key : String) (seconds : Int) :
    Except CacheError Bool × Engine σ :=
  if seconds ≤ 0 then
    let (n, e) := e.delete region [key]
    (.ok (0 < n), e)
  else match e.region? region with
    | none => (.ok false, e)
    | some _ => match e.peek now region key with
      | (none, e) => (.ok false, e)
      | (some _, e) =>
        let expiresAt := some (secondsAfter now seconds.toNat)
        match Store.updateExpiry region key expiresAt e.store with
        | (.error err, store) => (.error err, { e with store })
        | (.ok (), store) =>
          (.ok true, ({ e with store }.setResidentExpiry region key expiresAt).announce
            (.expire region key seconds) region key .expire)

/-- Clears the expiry of a key. False for an absent key. Followers hear of it as a whole entry. -/
def persist (e : Engine σ) (now : Nat) (region key : String) : Except CacheError Bool × Engine σ :=
  match e.region? region with
  | none => (.ok false, e)
  | some _ => match e.peek now region key with
    | (none, e) => (.ok false, e)
    | (some entry, e) => match Store.updateExpiry region key none e.store with
      | (.error err, store) => (.error err, { e with store })
      | (.ok (), store) =>
        (.ok true, ({ e with store }.setResidentExpiry region key none).announce
          (.set { entry with expiresAt := none }) region key .persist)

end Engine
end TierCache
