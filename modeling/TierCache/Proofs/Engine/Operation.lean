import TierCache.Engine.Regions
import TierCache.Engine.Typed

/-!
The operations of an engine as data, by the type of their replies, and runs of them. Every operation
on contents follows one of four plans.
-/
namespace TierCache

/-- What a reader sees of an entry, its times of use and its place aside. -/
structure Row where
  value : Value
  createdAt : Nat
  expiresAt : Option Nat
  deriving DecidableEq

def Entry.row (e : Entry) : Row := ⟨e.value, e.createdAt, e.expiresAt⟩

/-- An operation on the contents of a key, by the type of its result. -/
inductive Typed : Type → Type
  | incrBy (delta : Int64) : Typed Int64
  | append (suffix : String) : Typed Nat
  | hset (pairs : List (String × String)) : Typed Nat
  | hget (field : String) : Typed (Option String)
  | hgetAll : Typed (List (String × String))
  | hdel (fields : List String) : Typed Nat
  | pushHead (items : List String) : Typed Nat
  | pushTail (items : List String) : Typed Nat
  | popHead : Typed (Option String)
  | popTail : Typed (Option String)
  | listRange (start stop : Int64) : Typed (List String)
  | listLength : Typed Nat
  | setAdd (members : List String) : Typed Nat
  | setMembers : Typed (List String)
  | setRemove (members : List String) : Typed Nat
  | setContains (member : String) : Typed Bool
  | sortedAdd (members : List (Binary64 × String)) : Typed Nat
  | sortedRange (start stop : Int64) : Typed (List ScoredMember)
  | sortedRemove (members : List String) : Typed Nat
  | sortedScore (member : String) : Typed (Option Binary64)

/-- An operation, by the type of its reply. Of the figures only those are replies that say nothing
of memory. -/
inductive Operation : Type → Type 1
  | setValue (region key : String) (value : Value) (expiresAt : Option Nat) :
      Operation (Except CacheError Unit)
  | read (region key : String) : Operation (Option Row)
  | get (region key : String) : Operation (Option String)
  | countLive (region : String) (keys : List String) : Operation Nat
  | ttl (region key : String) : Operation Int
  | typeOf (region key : String) : Operation (Option DataType)
  | keys (region pattern : String) : Operation (List String)
  | scan (region : String) (cursor : Nat) (pattern : String) (count : Nat) : Operation Page
  | expire (region key : String) (seconds : Int) : Operation (Except CacheError Bool)
  | persist (region key : String) : Operation (Except CacheError Bool)
  | delete (region : String) (keys : List String) : Operation Nat
  | deleteRegion (region : String) : Operation (Except CacheError Unit)
  | sweep : Operation Nat
  | prime : Operation (Except CacheError Nat)
  | regionNames : Operation (List String)
  | regionCounts (region : String) : Operation (Nat × Nat)
  | knownCount : Operation Nat
  | lookups : Operation (Nat × Nat)
  | typed {α : Type} (region key : String) (op : Typed α) : Operation (Except CacheError α)

/-- An operation at a reading of the clock. -/
structure Call where
  now : Nat
  Reply : Type
  operation : Operation Reply

namespace Engine

variable {σ : Type} [Store σ] {α : Type}

def performTyped (e : Engine σ) (now : Nat) (region key : String) :
    Typed α → Except CacheError α × Engine σ
  | .incrBy delta => e.incrBy now region key delta
  | .append suffix => e.append now region key suffix
  | .hset pairs => e.hset now region key pairs
  | .hget field => e.hget now region key field
  | .hgetAll => e.hgetAll now region key
  | .hdel fields => e.hdel now region key fields
  | .pushHead items => e.pushHead now region key items
  | .pushTail items => e.pushTail now region key items
  | .popHead => e.popHead now region key
  | .popTail => e.popTail now region key
  | .listRange start stop => e.listRange now region key start stop
  | .listLength => e.listLength now region key
  | .setAdd members => e.setAdd now region key members
  | .setMembers => e.setMembers now region key
  | .setRemove members => e.setRemove now region key members
  | .setContains member => e.setContains now region key member
  | .sortedAdd members => e.sortedAdd now region key members
  | .sortedRange start stop => e.sortedRange now region key start stop
  | .sortedRemove members => e.sortedRemove now region key members
  | .sortedScore member => e.sortedScore now region key member

def perform (e : Engine σ) (now : Nat) : Operation α → α × Engine σ
  | .setValue region key value expiresAt => e.setValue now region key value expiresAt
  | .read region key =>
    let (found, e) := e.getEntry now region key
    (found.map Entry.row, e)
  | .get region key => e.get now region key
  | .countLive region keys => e.exists? now region keys
  | .ttl region key => e.ttl now region key
  | .typeOf region key => e.typeOf now region key
  | .keys region pattern => e.keys now region pattern
  | .scan region cursor pattern count => e.scan now region cursor pattern count
  | .expire region key seconds => e.expire now region key seconds
  | .persist region key => e.persist now region key
  | .delete region keys => e.delete region keys
  | .deleteRegion region => e.deleteRegion region
  | .sweep => e.sweep now
  | .prime => e.prime now
  | .regionNames => e.regionNames
  | .regionCounts region =>
    let (counts, e) := e.regionCounts region
    ((counts.total, counts.stored), e)
  | .knownCount => (e.knownCount, e)
  | .lookups => ((e.stats.hits, e.stats.misses), e)
  | .typed region key op => e.performTyped now region key op

/-- The engine after a run of operations. -/
def performAll (e : Engine σ) (calls : List Call) : Engine σ :=
  calls.foldl (fun e c => (e.perform c.now c.operation).2) e

end Engine

namespace Typed

open Engine

/-- How an operation goes about the contents of a key. -/
inductive Plan (α : Type) : Type 1
  | refuse (err : CacheError)
  | upsert {β : Type} (c : Contents β) (change : β → Except CacheError (Edit α β))
  | update {β : Type} (c : Contents β) (absent : α) (change : β → Edit α β)
  | inspect {β : Type} (c : Contents β) (absent : α) (read : β → α)

def plan : {α : Type} → Typed α → Plan α
  | _, .incrBy delta => .upsert .text (Edit.incr delta)
  | _, .append suffix => .upsert .text fun s => .ok (Edit.append suffix s)
  | _, .hset pairs => .upsert .hash fun h => .ok (Edit.setFields pairs h)
  | _, .hget field => .inspect .hash none (·[field]?)
  | _, .hgetAll => .inspect .hash [] (·.toList)
  | _, .hdel fields => .update .hash 0 (Edit.removeFields fields)
  | _, .pushHead items => .upsert .list fun xs => .ok (Edit.pushHead items xs)
  | _, .pushTail items => .upsert .list fun xs => .ok (Edit.pushTail items xs)
  | _, .popHead => .update .list none Edit.popHead
  | _, .popTail => .update .list none Edit.popTail
  | _, .listRange start stop => .inspect .list [] (Range.slice · start stop)
  | _, .listLength => .inspect .list 0 (·.length)
  | _, .setAdd members => .upsert .set fun s => .ok (Edit.addMembers members s)
  | _, .setMembers => .inspect .set [] (·.toList)
  | _, .setRemove members => .update .set 0 (Edit.removeMembers members)
  | _, .setContains member => .inspect .set false (·.contains member)
  | _, .sortedAdd members =>
    if members.all (·.1.isFinite) then
      .upsert .sortedSet fun z => .ok (Edit.addScored members z)
    else .refuse (.invalidRequest "value is not a valid float")
  | _, .sortedRange start stop => .inspect .sortedSet [] fun z => Range.slice z.toList start stop
  | _, .sortedRemove members => .update .sortedSet 0 (Edit.removeScored members)
  | _, .sortedScore member => .inspect .sortedSet none (·.score? member)

def Plan.run {σ α : Type} [Store σ] (e : Engine σ) (now : Nat) (region key : String) :
    Plan α → Except CacheError α × Engine σ
  | .refuse err => (.error err, e)
  | .upsert c change => e.upsert now region key c change
  | .update c absent change => e.update now region key c absent change
  | .inspect c absent read => e.inspect now region key c absent read

/-- An operation on contents is carried out as planned. -/
theorem performTyped_eq {σ α : Type} [Store σ] (e : Engine σ) (now : Nat) (region key : String)
    (op : Typed α) : e.performTyped now region key op = op.plan.run e now region key := by
  cases op with
  | sortedAdd members =>
    simp only [performTyped, Engine.sortedAdd, plan]
    split <;> rfl
  | _ => rfl

end Typed
end TierCache
