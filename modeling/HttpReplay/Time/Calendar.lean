/-!
# The calendar

Days are counted from the first of January 1970 in the proleptic Gregorian calendar. The
count is kept in years that begin with March, so that the leap day is the last day of its
year: the year `y` then begins `365 y + y / 4 - y / 100 + y / 400` days after the first of
March of the year zero, whatever the sign of `y`.

* `HttpReplay.Calendar.dayNumber` counts the days to a date;
* `HttpReplay.Calendar.dateOf` is the date of a day;
* `HttpReplay.Calendar.Date.IsValid` says which dates there are.
-/

namespace HttpReplay.Calendar

/-- A year, a month from 1 to 12 and a day of the month from 1. -/
structure Date where
  year : Int
  month : Nat
  day : Nat
  deriving Repr, DecidableEq

/-- A year with a 29th of February. -/
def isLeap (year : Int) : Bool := year % 4 == 0 && (year % 100 != 0 || year % 400 == 0)

/-- How many days a month has. -/
def daysInMonth (year : Int) (month : Nat) : Nat :=
  if month = 2 then (if isLeap year then 29 else 28)
  else if month = 4 ∨ month = 6 ∨ month = 9 ∨ month = 11 then 30
  else 31

/-- A date that exists. -/
def Date.IsValid (d : Date) : Prop :=
  1 ≤ d.month ∧ d.month ≤ 12 ∧ 1 ≤ d.day ∧ d.day ≤ daysInMonth d.year d.month

instance (d : Date) : Decidable d.IsValid := by unfold Date.IsValid; infer_instance

/-! ### Counting days -/

/-- Days from the first of March of the year zero to the first of March of another. -/
def daysBeforeYear (y : Int) : Int := 365 * y + y / 4 - y / 100 + y / 400

/-- Days from the first of March to the first day of the month that is `m` months later. -/
def daysBeforeMonth (m : Nat) : Nat := (153 * m + 2) / 5

/-- The number of days from the first of March of the year zero to the first of January
1970. -/
def epoch : Int := 719468

/-- The number of a date's day, counted from the first of January 1970. -/
def dayNumber (d : Date) : Int :=
  let y := if d.month ≤ 2 then d.year - 1 else d.year
  let m := if d.month ≤ 2 then d.month + 9 else d.month - 3
  daysBeforeYear y + (daysBeforeMonth m + d.day - 1 : Nat) - epoch

/-! ### Naming days -/

/-- The date of the day `doy` days after the first of March of the year `y`. -/
def dateInYear (y : Int) (doy : Nat) : Date :=
  let m := (5 * doy + 2) / 153
  let day := doy - daysBeforeMonth m + 1
  if m < 10 then ⟨y, m + 3, day⟩ else ⟨y + 1, m - 9, day⟩

/-- The date of a day. Whole cycles of 400 years are taken off first, then centuries, then
groups of four years, then years; the fourth century of a cycle and the fourth year of a
group are one day longer than the others. -/
def dateOf (day : Int) : Date :=
  let z := day + epoch
  let cycle := z / 146097
  let inCycle := (z % 146097).toNat
  let century := min (inCycle / 36524) 3
  let inCentury := inCycle - century * 36524
  let four := inCentury / 1461
  let inFour := inCentury % 1461
  let one := min (inFour / 365) 3
  dateInYear (400 * cycle + (100 * century + 4 * four + one : Nat)) (inFour - one * 365)

/-! ### The range of years -/

/-- The first year of the calendar's range. -/
def firstYear : Int := -262143

/-- The last year of the calendar's range. -/
def lastYear : Int := 262142

/-- A year within the calendar's range. -/
def inRange (year : Int) : Bool := firstYear ≤ year && year ≤ lastYear

end HttpReplay.Calendar
