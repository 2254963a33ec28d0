import TierCache.RowId
import TierCache.Store.Basic

/-!
A store in memory: one table of rows. No call fails.
-/
namespace TierCache
open Std

structure Table where
  rows : ExtTreeMap RowId Entry
  deriving DecidableEq

namespace Table

def empty : Table := ⟨∅⟩

instance : Inhabited Table := ⟨empty⟩

def get? (t : Table) (region key : String) : Option Entry := t.rows[RowId.mk region key]?

def save (t : Table) (e : Entry) : Table := ⟨t.rows.insert ⟨e.region, e.key⟩ e⟩

def erase (t : Table) (region key : String) : Table := ⟨t.rows.erase ⟨region, key⟩⟩

def eraseRegion (t : Table) (region : String) : Table :=
  ⟨t.rows.filter fun id _ => id.region ≠ region⟩

def setExpiry (t : Table) (region key : String) (expiresAt : Option Nat) : Table :=
  ⟨t.rows.modify ⟨region, key⟩ fun e => { e with expiresAt }⟩

def eraseExpired (t : Table) (now : Nat) : Table :=
  ⟨t.rows.filter fun _ e => !e.isExpired now⟩

/-- All entries, in the order of region and key. -/
def entries (t : Table) : List Entry := t.rows.toList.map (·.2)

def regionRows (t : Table) (region : String) : List (RowId × Entry) :=
  t.rows.toList.filter fun row => row.1.region = region

/-- The regions of the rows, each once. -/
def regionNames (t : Table) : List String :=
  (ExtTreeSet.ofList (t.rows.keys.map fun id => id.region) : ExtTreeSet String).toList

instance : Store Table where
  init t := (.ok (), t)
  save e t := (.ok (), t.save e)
  load region key t := (.ok (t.get? region key), t)
  loadAll t := (.ok t.entries, t)
  loadRegion region t := (.ok ((t.regionRows region).map (·.2)), t)
  delete region key t := (.ok (), t.erase region key)
  deleteRegion region t := (.ok (), t.eraseRegion region)
  updateExpiry region key expiresAt t := (.ok (), t.setExpiry region key expiresAt)
  deleteExpired now t :=
    let kept := t.eraseExpired now
    (.ok (t.rows.size - kept.rows.size), kept)
  count region t := (.ok (t.regionRows region).length, t)
  regions t := (.ok t.regionNames, t)

end Table
end TierCache
