import TierCache.Store.Basic

/-!
A store some of whose calls fail. Which ones is told by the number of the call and what it asks for;
a failed call does not reach the store behind.
-/
namespace TierCache

structure Faulty (σ : Type) where
  inner : σ
  /-- Whether a call fails, by how many came before it and its kind. -/
  fails : Nat → StoreCall → Bool
  /-- The number of calls so far. -/
  calls : Nat

namespace Faulty

variable {σ : Type}

/-- A store whose calls all reach it. -/
def sound (inner : σ) : Faulty σ := ⟨inner, fun _ _ => false, 0⟩

/-- Calls of the given kinds fail from now on, and no others. -/
def failing (s : Faulty σ) (kinds : List StoreCall) : Faulty σ :=
  { s with fails := fun _ call => kinds.contains call }

/-- The failure of a call that was made to fail. -/
def injected (call : StoreCall) : CacheError := .store ("injected " ++ call.name)

/-- Makes one call. -/
def attempt {α : Type} (s : Faulty σ) (call : StoreCall)
    (run : σ → Except CacheError α × σ) : Except CacheError α × Faulty σ :=
  let after := { s with calls := s.calls + 1 }
  if s.fails s.calls call then (.error (injected call), after)
  else
    let (result, inner) := run s.inner
    (result, { after with inner })

instance [Store σ] : Store (Faulty σ) where
  init s :=
    let (result, inner) := Store.init s.inner
    (result, { s with inner })
  save e s := s.attempt .save (Store.save e)
  load region key s := s.attempt .load (Store.load region key)
  loadAll s := s.attempt .loadAll Store.loadAll
  loadRegion region s := s.attempt .loadRegion (Store.loadRegion region)
  delete region key s := s.attempt .delete (Store.delete region key)
  deleteRegion region s := s.attempt .deleteRegion (Store.deleteRegion region)
  updateExpiry region key expiresAt s :=
    s.attempt .updateExpiry (Store.updateExpiry region key expiresAt)
  deleteExpired now s := s.attempt .deleteExpired (Store.deleteExpired now)
  count region s := s.attempt .count (Store.count region)
  regions s := s.attempt .regions Store.regions

end Faulty
end TierCache
