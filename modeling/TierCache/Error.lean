/-!
What can go wrong, and the words for it.
-/
namespace TierCache

inductive CacheError
  /-- A key or region that is not there. -/
  | notFound (what : String)
  /-- A request that cannot be carried out as asked. -/
  | invalidRequest (why : String)
  /-- An operation on a key that holds another type. -/
  | wrongType
  /-- A text that is no integer of 64 bits, or a result beyond them. -/
  | notInteger
  /-- A command line that is no list of tokens. -/
  | malformedLine (why : String)
  /-- The default region cannot be deleted. -/
  | defaultRegion (name : String)
  /-- The durable tier failed. -/
  | store (why : String)
  /-- The replication log failed, or a record on it lacks something. -/
  | replication (why : String)
  | internal (why : String)
  deriving DecidableEq, Repr

namespace CacheError

def message : CacheError → String
  | notFound what => "not found: " ++ what
  | invalidRequest why => why
  | wrongType => "WRONGTYPE Operation against a key holding the wrong kind of value"
  | notInteger => "value is not an integer or out of range"
  | malformedLine why => "protocol error: " ++ why
  | defaultRegion name => "cannot delete default region '" ++ name ++ "'"
  | store why => "store error: " ++ why
  | replication why => "replication error: " ++ why
  | internal why => "internal error: " ++ why

/-- Data that cannot be read from its JSON. -/
def unreadable : CacheError := internal "serialization failed"

/-- A failure of the system below the store. -/
def ofSystem (why : String) : CacheError := store why

end CacheError
end TierCache
