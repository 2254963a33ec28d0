/-!
The two clocks of an instance, in milliseconds: the wall clock, which may be set, and the steady
one, which only runs.
-/
namespace TierCache

structure Clock where
  /-- The time since 1970. -/
  wall : Nat
  /-- The time since some moment in the past. -/
  steady : Nat
  deriving DecidableEq, Repr

namespace Clock

/-- Time passes. -/
def advance (c : Clock) (ms : Nat) : Clock := ⟨c.wall + ms, c.steady + ms⟩

/-- Sets the wall clock. -/
def set (c : Clock) (wall : Nat) : Clock := { c with wall }

end Clock
end TierCache
