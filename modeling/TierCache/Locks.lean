import Std.Data.ExtTreeMap

/-!
A registry of locks by identifier. A lock is made at the first call for its identifier; a handle
keeps it alive, and a lock that no handle keeps may be dropped from the registry. Each lock has its
own number, so two handles are of one lock exactly when their numbers are equal.
-/
namespace TierCache
open Std

/-- A registered lock and how many handles of it are held. -/
structure Lock where
  number : Nat
  handles : Nat
  deriving DecidableEq, Repr

/-- A handle: the identifier it was taken for and the lock it keeps. -/
structure LockHandle (κ : Type) where
  id : κ
  number : Nat
  deriving DecidableEq, Repr

structure LockRegistry (κ : Type) [Ord κ] where
  locks : ExtTreeMap κ Lock
  /-- The number of the next new lock. -/
  next : Nat

namespace LockRegistry

variable {κ : Type} [Ord κ] [TransOrd κ]

def empty : LockRegistry κ := ⟨∅, 0⟩

/-- A handle of the identifier's lock, which is made if there is none. -/
def acquire (r : LockRegistry κ) (id : κ) : LockHandle κ × LockRegistry κ :=
  match r.locks[id]? with
  | some lock =>
    let lock := { lock with handles := lock.handles + 1 }
    (⟨id, lock.number⟩, { r with locks := r.locks.insert id lock })
  | none => (⟨id, r.next⟩, ⟨r.locks.insert id ⟨r.next, 1⟩, r.next + 1⟩)

/-- Gives a handle back. A registered lock with handles is never dropped, so the handle's lock is
the registered one. -/
def release (r : LockRegistry κ) (h : LockHandle κ) : LockRegistry κ :=
  match r.locks[h.id]? with
  | some lock =>
    if lock.number = h.number then
      { r with locks := r.locks.insert h.id { lock with handles := lock.handles - 1 } }
    else r
  | none => r

/-- Drops the locks of matching identifiers that no handle keeps. -/
def prune (r : LockRegistry κ) (pred : κ → Bool) : LockRegistry κ :=
  { r with locks := r.locks.filter fun id lock => !(pred id && lock.handles == 0) }

/-- Drops the identifier's lock unless a handle keeps it. True when it was dropped. -/
def removeIfUnused (r : LockRegistry κ) (id : κ) : Bool × LockRegistry κ :=
  match r.locks[id]? with
  | some lock =>
    if lock.handles = 0 then (true, { r with locks := r.locks.erase id }) else (false, r)
  | none => (false, r)

def size (r : LockRegistry κ) : Nat := r.locks.size

def isEmpty (r : LockRegistry κ) : Bool := r.locks.isEmpty

end LockRegistry
end TierCache
