import TierCache.Text.Percent

/-!
The paths of the admin interface.
-/
namespace TierCache.Admin

inductive Route
  | health
  | stats
  | regions
  | region (name : List Char)
  | keys (region : List Char)
  | key (region name : List Char)
  | status
  deriving DecidableEq, Repr

inductive Method
  | get
  | put
  | delete
  deriving DecidableEq, Repr

namespace Route

/-- The route of a path. Names are still encoded; one at the end of a path is not empty. -/
def ofPath? (path : List Char) : Option Route :=
  match (Text.splitOn '/' path).map String.ofList with
  | ["", "health"] => some health
  | ["", "stats"] => some stats
  | ["", "regions"] => some regions
  | ["", "regions", name] => if name = "" then none else some (region name.toList)
  | ["", "regions", name, "keys"] => some (keys name.toList)
  | ["", "regions", inside, "keys", name] =>
    if name = "" then none else some (key inside.toList name.toList)
  | ["", "replication", "status"] => some status
  | _ => none

/-- The methods that a route knows. -/
def methods : Route → List Method
  | region _ => [.get, .delete]
  | key _ _ => [.get, .put, .delete]
  | _ => [.get]

end Route

/-- The method that a request asks for; a request for the head alone is one to get. -/
def Method.ofName? (name : String) : Option Method :=
  if name = "GET" ∨ name = "HEAD" then some get
  else if name = "PUT" then some put
  else if name = "DELETE" then some delete
  else none

/-- The path and the query of a request target. -/
def splitTarget (target : List Char) : List Char × List Char :=
  let target := target.takeWhile (· ≠ '#')
  (target.takeWhile (· ≠ '?'), (target.dropWhile (· ≠ '?')).drop 1)

end TierCache.Admin
