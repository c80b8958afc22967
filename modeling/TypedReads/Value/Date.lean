import TypedReads.Text.Basic

/-!
# Dates

The text of a point in time given in milliseconds from the start of 1970, in universal time:
`1970-01-01T00:00:00.000Z`. Years outside four digits have a sign and six digits. The calendar is
the Gregorian one, counted in cycles of 400 years that start on the first of March, so that the
leap day is the last of its year.
-/

namespace TypedReads

/-- A decimal numeral with at least `width` digits. -/
def paddedNat (width n : Nat) : Text :=
  let digits := Text.ofNat n
  List.replicate (width - digits.length) (unit '0') ++ digits

/-- The year, the month and the day of a day counted from the start of 1970. -/
def civilDate (day : Int) : Int × Nat × Nat :=
  let shifted := day + 719468
  let cycle := shifted.fdiv 146097
  let dayOfCycle := (shifted.fmod 146097).toNat
  let yearOfCycle :=
    (dayOfCycle - dayOfCycle / 1460 + dayOfCycle / 36524 - dayOfCycle / 146096) / 365
  let dayOfYear := dayOfCycle - (365 * yearOfCycle + yearOfCycle / 4 - yearOfCycle / 100)
  let monthFromMarch := (5 * dayOfYear + 2) / 153
  let month := if monthFromMarch < 10 then monthFromMarch + 3 else monthFromMarch - 9
  let year : Int := yearOfCycle + 400 * cycle + if month ≤ 2 then 1 else 0
  (year, month, dayOfYear - (153 * monthFromMarch + 2) / 5 + 1)

/-- The text of a year. -/
def yearText (year : Int) : Text :=
  if 0 ≤ year ∧ year ≤ 9999 then paddedNat 4 year.natAbs
  else (if year < 0 then unit '-' else unit '+') :: paddedNat 6 year.natAbs

/-- The text of a point in time. -/
def dateText (time : Int) : Text :=
  let (year, month, day) := civilDate (time.fdiv 86400000)
  let rest := (time.fmod 86400000).toNat
  yearText year ++ units "-" ++ paddedNat 2 month ++ units "-" ++ paddedNat 2 day ++
    units "T" ++ paddedNat 2 (rest / 3600000) ++ units ":" ++ paddedNat 2 (rest / 60000 % 60) ++
    units ":" ++ paddedNat 2 (rest / 1000 % 60) ++ units "." ++ paddedNat 3 (rest % 1000) ++
    units "Z"

/-- The text of a date, which may be no point in time. -/
def dateText? (time : Option Int) : Text := time.elim (units "Invalid Date") dateText

end TypedReads
