/-
  SymbolAtlas.Calendar: points in time as they are written.
-/

namespace SymbolAtlas.Calendar

/-- Days from the first of March of the year zero to the first of January 2020. -/
def epoch : Nat := 737730

/-- Year, month and day of a number of days since the beginning of 2020. Years are counted from
March on, so that a leap day is the last day of its year. -/
def date (days : Nat) : Nat × Nat × Nat :=
  let z := days + epoch
  let era := z / 146097
  let dayOfEra := z % 146097
  let yearOfEra := (dayOfEra - dayOfEra / 1460 + dayOfEra / 36524 - dayOfEra / 146096) / 365
  let dayOfYear := dayOfEra - (365 * yearOfEra + yearOfEra / 4 - yearOfEra / 100)
  let m := (5 * dayOfYear + 2) / 153
  let month := if m < 10 then m + 3 else m - 9
  (yearOfEra + era * 400 + (if month ≤ 2 then 1 else 0), month, dayOfYear - (153 * m + 2) / 5 + 1)

/-- A number with at least two digits. -/
def two (n : Nat) : String := if n < 10 then "0" ++ toString n else toString n

/-- A number of minutes since the beginning of 2020 as a date and a time. -/
def stamp (minutes : Nat) : String :=
  let (year, month, day) := date (minutes / 1440)
  toString year ++ "-" ++ two month ++ "-" ++ two day ++ "T" ++ two (minutes / 60 % 24) ++ ":" ++
    two (minutes % 60) ++ ":00+00:00"

end SymbolAtlas.Calendar
