/-!
Moments as text, in the form of RFC 3339 and in Coordinated Universal Time.
-/
namespace TierCache.Text

/-- A day of the calendar; months and days count from one. -/
structure Date where
  year : Nat
  month : Nat
  day : Nat
  deriving DecidableEq, Repr

namespace Date

/-- The day that lies a number of days after the first of January 1970. Years are counted from March
on in eras of 400 years, all of one length, so that the leap day ends a year. -/
def ofDays (days : Nat) : Date :=
  let z := days + 719468
  let era := z / 146097
  let dayOfEra := z % 146097
  let yearOfEra := (dayOfEra - dayOfEra / 1460 + dayOfEra / 36524 - dayOfEra / 146096) / 365
  let dayOfYear := dayOfEra - (365 * yearOfEra + yearOfEra / 4 - yearOfEra / 100)
  let monthFromMarch := (5 * dayOfYear + 2) / 153
  let day := dayOfYear - (153 * monthFromMarch + 2) / 5 + 1
  let month := if monthFromMarch < 10 then monthFromMarch + 3 else monthFromMarch - 9
  let year := yearOfEra + era * 400
  ⟨if month ≤ 2 then year + 1 else year, month, day⟩

end Date

/-- A number with at least `width` digits. -/
def padded (width n : Nat) : String :=
  let digits := toString n
  String.ofList (List.replicate (width - digits.length) '0') ++ digits

/-- A year has four digits; more of them are marked by a plus sign. -/
def yearText (year : Nat) : String := if year < 10000 then padded 4 year else "+" ++ toString year

/-- The moment that lies some milliseconds after the start of 1970. Milliseconds are written unless
they are zero. -/
def timestamp (ms : Nat) : String :=
  let seconds := ms / 1000
  let d := Date.ofDays (seconds / 86400)
  let date := yearText d.year ++ "-" ++ padded 2 d.month ++ "-" ++ padded 2 d.day
  let time := padded 2 (seconds / 3600 % 24) ++ ":" ++ padded 2 (seconds / 60 % 60) ++ ":" ++
    padded 2 (seconds % 60)
  let fraction := if ms % 1000 = 0 then "" else "." ++ padded 3 (ms % 1000)
  date ++ "T" ++ time ++ fraction ++ "+00:00"

end TierCache.Text
