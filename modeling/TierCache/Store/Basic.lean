import TierCache.Entry
import TierCache.Error

/-!
The durable tier as the engine sees it. Every call may fail and every call may change the store, so
each answers with an outcome and the store it leaves behind.
-/
namespace TierCache

/-- The calls by which a store is used, apart from opening it. -/
inductive StoreCall
  | save
  | load
  | loadAll
  | loadRegion
  | delete
  | deleteRegion
  | updateExpiry
  | deleteExpired
  | count
  | regions
  deriving DecidableEq, Repr

namespace StoreCall

def name : StoreCall → String
  | save => "save"
  | load => "load"
  | loadAll => "load_all"
  | loadRegion => "load_by_region"
  | delete => "delete"
  | deleteRegion => "delete_region"
  | updateExpiry => "update_expiry"
  | deleteExpired => "delete_expired"
  | count => "count"
  | regions => "regions"

def all : List StoreCall :=
  [save, load, loadAll, loadRegion, delete, deleteRegion, updateExpiry, deleteExpired, count,
    regions]

def ofName? (s : String) : Option StoreCall := all.find? (·.name = s)

end StoreCall

/-- Rows of entries under a region and a key. Lists of entries come in the order of region and key,
names of regions in their own order. -/
class Store (σ : Type) where
  /-- Makes the store ready for use. -/
  init : σ → Except CacheError Unit × σ
  /-- Writes the row of the entry's region and key. -/
  save : Entry → σ → Except CacheError Unit × σ
  load : String → String → σ → Except CacheError (Option Entry) × σ
  loadAll : σ → Except CacheError (List Entry) × σ
  loadRegion : String → σ → Except CacheError (List Entry) × σ
  /-- Removes a row, if there is one. -/
  delete : String → String → σ → Except CacheError Unit × σ
  deleteRegion : String → σ → Except CacheError Unit × σ
  /-- Sets or clears the expiry of a row, if there is one. -/
  updateExpiry : String → String → Option Nat → σ → Except CacheError Unit × σ
  /-- Removes the rows that are expired at a time, and counts them. -/
  deleteExpired : Nat → σ → Except CacheError Nat × σ
  count : String → σ → Except CacheError Nat × σ
  /-- The regions with at least one row. -/
  regions : σ → Except CacheError (List String) × σ

end TierCache
