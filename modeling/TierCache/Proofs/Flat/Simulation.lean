import TierCache.Proofs.Flat.Contents
import TierCache.Proofs.Flat.Counting
import TierCache.Proofs.Flat.Expiry
import TierCache.Proofs.Flat.Sweeping

/-!
Memory is not to be seen: over a store whose calls succeed, an engine of any capacity answers as the
flat cache does, whatever the operations and the readings of the clock.
-/
namespace TierCache

variable {σ α : Type} [Store σ] {stands : σ → Table → Prop}

namespace Mirrors

variable (reliable : Reliable stands)
include reliable

theorem perform (now : Nat) (op : Operation α) :
    Simulates stands (·.perform now op) (·.perform now op) := by
  cases op with
  | setValue region key value expiresAt => exact setValue reliable now region key value expiresAt
  | read region key => exact read reliable now region key
  | get region key => exact get reliable now region key
  | countLive region keys => exact exists? reliable now region keys
  | ttl region key => exact ttl reliable now region key
  | typeOf region key => exact typeOf reliable now region key
  | keys region pattern => exact keys reliable now region pattern
  | scan region cursor pattern count => exact scan reliable now region cursor pattern count
  | expire region key seconds => exact expire reliable now region key seconds
  | persist region key => exact persist reliable now region key
  | delete region keys => exact delete reliable region keys
  | deleteRegion region => exact deleteRegion reliable region
  | sweep => exact sweep reliable now
  | prime => exact prime reliable now
  | regionNames => exact regionNames reliable
  | regionCounts region => exact regionCounts reliable region
  | knownCount =>
    intro e f h
    exact ⟨h.knownCount, h⟩
  | lookups =>
    intro e f h
    exact ⟨Prod.ext h.hits h.misses, h⟩
  | typed region key op => exact typed reliable op

/-- A run of operations keeps an engine and the flat cache alike. -/
theorem performAll (calls : List Call) {e : Engine σ} {f : Flat} (h : Mirrors stands e f) :
    Mirrors stands (e.performAll calls) (f.performAll calls) := by
  induction calls generalizing e f with
  | nil => exact h
  | cons call rest ih => exact ih (perform reliable call.now call.operation h).2

end Mirrors

/-- Whatever was done before, an operation on an engine replies as on the flat cache, and so the reply
is the same for every capacity. -/
theorem reply_eq_flat (reliable : Reliable stands) {store : σ} (hempty : stands store .empty)
    (defaultRegion : String) (calls : List Call) (now : Nat) (op : Operation α) (capacity : Nat) :
    (((Engine.fresh store capacity defaultRegion).performAll calls).perform now op).1 =
        (((Flat.empty defaultRegion).performAll calls).perform now op).1 ∧
      ∀ other : Nat,
        (((Engine.fresh store capacity defaultRegion).performAll calls).perform now op).1 =
          (((Engine.fresh store other defaultRegion).performAll calls).perform now op).1 := by
  have hreply (capacity : Nat) :
      (((Engine.fresh store capacity defaultRegion).performAll calls).perform now op).1 =
        (((Flat.empty defaultRegion).performAll calls).perform now op).1 := by
    have hrun := (Mirrors.fresh hempty capacity defaultRegion).performAll reliable calls
    exact (Mirrors.perform reliable now op hrun).1
  exact ⟨hreply capacity, fun other => (hreply capacity).trans (hreply other).symm⟩

/-- A key that expires at 10 is there at 7, for a memory without a place as for any other. -/
theorem reply_eq_flat_unexpired :
    Table.empty = Table.empty ∧
    (((Engine.fresh Table.empty 0 "main").performAll
      [⟨5, _, .setValue "main" "k" (.string "v") (some 10)⟩]).perform 7 (.get "main" "k")).1 =
      some "v" := by
  refine ⟨rfl, ?_⟩
  have hempty : Eq Table.empty Table.empty := rfl
  have hreply := (reply_eq_flat Table.reliable hempty "main"
    [⟨5, _, .setValue "main" "k" (.string "v") (some 10)⟩] 7 (.get "main" "k") 0).1
  rw [hreply]
  decide +kernel

end TierCache
