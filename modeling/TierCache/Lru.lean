import Std.Data.ExtTreeMap

/-!
The order of last use of the keys that one region holds in memory. Each use is stamped with a tick
of a clock that all regions share, so the oldest keys of two regions can be compared.
-/
namespace TierCache
open Std

structure Lru where
  /-- The tick of each key's last use. -/
  stamps : ExtTreeMap String Nat
  /-- The key of each tick. -/
  order : ExtTreeMap Nat String
  deriving DecidableEq

namespace Lru

def empty : Lru := ⟨∅, ∅⟩

instance : Inhabited Lru := ⟨empty⟩

/-- Marks a key as used at `tick`, in place of its earlier stamp. -/
def touch (l : Lru) (key : String) (tick : Nat) : Lru :=
  let order := match l.stamps[key]? with
    | some previous => l.order.erase previous
    | none => l.order
  ⟨l.stamps.insert key tick, order.insert tick key⟩

def remove (l : Lru) (key : String) : Lru :=
  match l.stamps[key]? with
  | some tick => ⟨l.stamps.erase key, l.order.erase tick⟩
  | none => l

/-- The least recently used key with its tick. -/
def oldest? (l : Lru) : Option (String × Nat) :=
  l.order.minKey?.bind fun tick => l.order[tick]?.map fun key => (key, tick)

/-- Takes out the least recently used key. -/
def evictOldest (l : Lru) : Option String × Lru :=
  match l.oldest? with
  | some (key, tick) => (some key, ⟨l.stamps.erase key, l.order.erase tick⟩)
  | none => (none, l)

def size (l : Lru) : Nat := l.stamps.size

def isEmpty (l : Lru) : Bool := l.stamps.isEmpty

def contains (l : Lru) (key : String) : Bool := l.stamps.contains key

end Lru
end TierCache
