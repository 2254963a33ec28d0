import Std.Data.ExtTreeMap
import Std.Data.ExtTreeSet
import TierCache.Lru
import TierCache.Stats
import TierCache.Store.Basic

/-!
The cache: regions of keys, some of whose entries are held in memory, over a store that holds all of
them. All regions together hold at most `capacity` entries in memory.
-/
namespace TierCache
open Std

/-- A write as those who replicate the cache hear of it. -/
inductive Mutation
  | set (entry : Entry)
  | delete (region key : String)
  | expire (region key : String) (seconds : Int)
  | deleteRegion (region : String)
  deriving DecidableEq

inductive ChangeKind
  | set
  | delete
  | expire
  | persist
  | deleteRegion
  deriving DecidableEq, Repr

namespace ChangeKind

def tag : ChangeKind → String
  | set => "SET"
  | delete => "DEL"
  | expire => "EXPIRE"
  | persist => "PERSIST"
  | deleteRegion => "DELETE_REGION"

def ofTag? (s : String) : Option ChangeKind :=
  [set, delete, expire, persist, deleteRegion].find? (·.tag = s)

end ChangeKind

/-- What the engine tells the outside, in the order in which it happened. -/
inductive Signal
  | mutation (m : Mutation)
  | change (region key : String) (kind : ChangeKind)
  deriving DecidableEq

/-- One region: the keys that count as present, the entries in memory, and their order of use. -/
structure Region where
  known : ExtTreeSet String
  memory : ExtTreeMap String Entry
  lru : Lru
  deriving DecidableEq

namespace Region

def empty : Region := ⟨∅, ∅, .empty⟩

instance : Inhabited Region := ⟨empty⟩

end Region

structure Engine (σ : Type) where
  store : σ
  regions : ExtTreeMap String Region
  defaultRegion : String
  /-- The greatest number of entries in memory. -/
  capacity : Nat
  /-- The number of memory slots taken. -/
  resident : Nat
  /-- The tick of the last use of an entry in memory. -/
  clock : Nat
  stats : Stats
  /-- What was not yet passed on. -/
  signals : List Signal

namespace Engine

variable {σ : Type}

/-- An engine that holds nothing yet. The default region is there from the start. -/
def fresh (store : σ) (capacity : Nat) (defaultRegion : String) : Engine σ :=
  { store, regions := (∅ : ExtTreeMap String Region).insert defaultRegion .empty, defaultRegion,
    capacity, resident := 0, clock := 0, stats := .zero, signals := [] }

def region? (e : Engine σ) (region : String) : Option Region := e.regions[region]?

/-- The region's state, empty if there is none. -/
def regionD (e : Engine σ) (region : String) : Region := (e.region? region).getD .empty

def setRegion (e : Engine σ) (region : String) (s : Region) : Engine σ :=
  { e with regions := e.regions.insert region s }

/-- Brings the region into being. -/
def ensureRegion (e : Engine σ) (region : String) : Engine σ :=
  if e.regions.contains region then e else e.setRegion region .empty

def signal (e : Engine σ) (s : Signal) : Engine σ := { e with signals := e.signals ++ [s] }

/-- A mutation and the change that goes with it. -/
def announce (e : Engine σ) (m : Mutation) (region key : String) (kind : ChangeKind) : Engine σ :=
  (e.signal (.mutation m)).signal (.change region key kind)

/-- The keys known over all regions. -/
def knownCount (e : Engine σ) : Nat := e.regions.foldl (fun n _ s => n + s.known.size) 0

def snapshot (e : Engine σ) : Snapshot := ⟨e.stats, e.resident, e.knownCount, e.capacity⟩

/-- Whether the entry of a key is in memory. -/
def isResident (e : Engine σ) (region key : String) : Bool :=
  (e.regionD region).memory.contains key

end Engine
end TierCache
