import TierCache.Store.LogStore
import TierCache.Store.Table
import TierCache.Text.Blank

/-!
The stores to choose from: a table in memory, or logs in a directory.
-/
namespace TierCache

inductive BackendKind
  | memory
  | file
  deriving DecidableEq, Repr

namespace BackendKind

def name : BackendKind → String
  | memory => "memory"
  | file => "file"

/-- A backend by one of its names, in any case of letters; otherwise what is wrong. -/
def ofText (s : String) : Except String BackendKind :=
  let word := Text.lower s
  if word = "memory" ∨ word = "sql" ∨ word = "table" then .ok memory
  else if word = "file" ∨ word = "log" then .ok file
  else .error ("unknown store backend '" ++ word ++ "'")

end BackendKind

inductive Backend
  | memory (table : Table)
  | file (logs : LogStore)

namespace Backend

/-- A fresh backend of a kind; logs go to the directory. -/
def ofKind (d : Directory) : BackendKind → Backend
  | .memory => memory .empty
  | .file => file (.ofDirectory d)

/-- What a restart leaves: the table as it is, or the directory without any open log. -/
def restart : Backend → Backend
  | memory t => memory t
  | file s => file (.ofDirectory s.directory)

/-- A call to whichever store it is. -/
def run {α : Type} (onTable : Table → Except CacheError α × Table)
    (onLogs : LogStore → Except CacheError α × LogStore) :
    Backend → Except CacheError α × Backend
  | memory t => let (result, t) := onTable t; (result, memory t)
  | file s => let (result, s) := onLogs s; (result, file s)

instance : Store Backend where
  init := run Store.init Store.init
  save e := run (Store.save e) (Store.save e)
  load region key := run (Store.load region key) (Store.load region key)
  loadAll := run Store.loadAll Store.loadAll
  loadRegion region := run (Store.loadRegion region) (Store.loadRegion region)
  delete region key := run (Store.delete region key) (Store.delete region key)
  deleteRegion region := run (Store.deleteRegion region) (Store.deleteRegion region)
  updateExpiry region key expiresAt :=
    run (Store.updateExpiry region key expiresAt) (Store.updateExpiry region key expiresAt)
  deleteExpired now := run (Store.deleteExpired now) (Store.deleteExpired now)
  count region := run (Store.count region) (Store.count region)
  regions := run Store.regions Store.regions

end Backend
end TierCache
