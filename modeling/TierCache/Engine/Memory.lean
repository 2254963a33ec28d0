import TierCache.Engine.Basic

/-!
Memory slots. A slot is claimed before an entry is put into memory; a write may make room by moving
the least recently used entry of all regions out of memory, a read may not.
-/
namespace TierCache
open Std

namespace Engine

variable {σ : Type}

/-- Claims a free slot. -/
def tryReserve (e : Engine σ) : Bool × Engine σ :=
  if e.resident < e.capacity then (true, { e with resident := e.resident + 1 }) else (false, e)

def release (e : Engine σ) : Engine σ := { e with resident := e.resident - 1 }

/-- The older of two uses; the first wins a tie. -/
def older (a b : String × String × Nat) : String × String × Nat :=
  if b.2.2 < a.2.2 then b else a

/-- The best so far against the least recently used entry of one more region. -/
def contend (best : Option (String × String × Nat)) (row : String × Region) :
    Option (String × String × Nat) :=
  match row.2.lru.oldest?, best with
  | none, best => best
  | some (key, tick), none => some (row.1, key, tick)
  | some (key, tick), some best => some (older best (row.1, key, tick))

/-- The least recently used entry in memory: its region, its key and the tick of that use. -/
def victim? (e : Engine σ) : Option (String × String × Nat) := e.regions.toList.foldl contend none

/-- Moves the least recently used entry out of memory; it stays known and stored. False when memory
holds no entry. -/
def evictOne (e : Engine σ) : Bool × Engine σ :=
  match e.victim? with
  | none => (false, e)
  | some (region, key, _) =>
    let s := e.regionD region
    let cleared := e.setRegion region
      { s with memory := s.memory.erase key, lru := s.lru.remove key }
    if s.memory.contains key then
      let freed := cleared.release
      (true, { freed with stats := freed.stats.evict })
    else (true, cleared)

/-- Claims a slot, moving entries out of memory until one is free. The fuel bounds the number of
entries that have to go. -/
def reserveWithin : Nat → Engine σ → Bool × Engine σ
  | 0, e => e.tryReserve
  | fuel + 1, e => match e.tryReserve with
    | (true, e) => (true, e)
    | (false, e) => match e.evictOne with
      | (true, e) => reserveWithin fuel e
      | (false, e) => (false, e)

/-- Claims a slot; only a memory of capacity zero has none to give. -/
def reserve (e : Engine σ) : Bool × Engine σ := reserveWithin (e.resident + 1) e

/-- Has an entry in memory under a key, as the most recently used one. -/
def hold (e : Engine σ) (region key : String) (entry : Entry) : Engine σ :=
  let s := e.regionD region
  let tick := e.clock + 1
  { e.setRegion region
    { s with memory := s.memory.insert key entry, lru := s.lru.touch key tick } with clock := tick }

/-- Puts an entry into memory. With `reserved` the caller has a slot for it, which is given back when
the key has one already; without, the key has one or claims one now. False when there is none. -/
def install (e : Engine σ) (region : String) (entry : Entry) (reserved : Bool) : Bool × Engine σ :=
  if (e.regionD region).memory.contains entry.key then
    let placed := e.hold region entry.key entry
    (true, if reserved then placed.release else placed)
  else if reserved then (true, e.hold region entry.key entry)
  else match e.tryReserve with
    | (true, e) => (true, e.hold region entry.key entry)
    | (false, e) => (false, e)

end Engine
end TierCache
