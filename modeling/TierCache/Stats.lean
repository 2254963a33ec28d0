import TierCache.Number.Binary64

/-!
Counters of a cache.
-/
namespace TierCache

structure Stats where
  hits : Nat
  misses : Nat
  evictions : Nat
  deriving DecidableEq, Repr, Inhabited

namespace Stats

def zero : Stats := ⟨0, 0, 0⟩

def hit (s : Stats) : Stats := { s with hits := s.hits + 1 }

def miss (s : Stats) : Stats := { s with misses := s.misses + 1 }

def evict (s : Stats) : Stats := { s with evictions := s.evictions + 1 }

/-- The part of the reads that were hits, zero before the first read. -/
def hitRate (s : Stats) : Binary64 :=
  if s.hits + s.misses = 0 then .zero
  else (Binary64.ofNat s.hits).div (Binary64.ofNat (s.hits + s.misses))

end Stats

/-- The counters together with the sizes of the tiers. -/
structure Snapshot where
  stats : Stats
  resident : Nat
  known : Nat
  capacity : Nat
  deriving DecidableEq, Repr

end TierCache
