/-!
# The calendar

Dates of the Gregorian calendar, extended to all years, and their number of days since
1 January 1970.

* `Date.valid`: the month exists and has that many days.
* `Date.dayNumber`/`Date.ofDayNumber`: a date as a number of days and back.
-/

namespace Pkix

/-- A day of the calendar. -/
structure Date where
  year : Int
  month : Nat
  day : Nat
deriving DecidableEq, Repr

namespace Date

/-- A `year` divisible by 4 is a leap year, unless by 100 and not by 400. -/
def isLeap (year : Int) : Bool := year % 4 == 0 && (year % 100 != 0 || year % 400 == 0)

/-- The lengths of the twelve months of a `year`. -/
def monthLengths (year : Int) : List Nat :=
  [31, if isLeap year then 29 else 28, 31, 30, 31, 30, 31, 31, 30, 31, 30, 31]

/-- The month of `d` exists and has that many days. -/
def valid (d : Date) : Bool :=
  1 ≤ d.month && 1 ≤ d.day && match (monthLengths d.year)[d.month - 1]? with
    | some length => d.day ≤ length
    | none => false

/-- The number of days from 1 January of year 0 to 1 January of the given `year`: 365 for every year
and one for every leap year between. -/
def daysBeforeYear (year : Int) : Int :=
  365 * year + (year + 3) / 4 - (year + 99) / 100 + (year + 399) / 400

/-- The day number of 1 January 1970 counted from year 0. -/
def epoch : Int := 719528

/-- The number of days from 1 January to the first day of a `month`. -/
def daysBeforeMonth (year : Int) (month : Nat) : Nat :=
  ((monthLengths year).take (month - 1)).foldl (· + ·) 0

/-- The number of days from 1 January 1970 to `d`, negative before it. -/
def dayNumber (d : Date) : Int :=
  daysBeforeYear d.year - epoch + daysBeforeMonth d.year d.month + d.day - 1

/-- The year of a day counted from year 0, by the `days` before it. A year has 146097/400 days on
average and no year starts more than two days off that average, so the quotient is off by one at
most. -/
def yearOf (days : Int) : Int :=
  let guess := days * 400 / 146097
  if days < daysBeforeYear guess then guess - 1
  else if daysBeforeYear (guess + 1) ≤ days then guess + 1
  else guess

/-- The month and day that follow `days` days after the start of the month numbered `month`,
where the months have the given lengths. -/
def monthDay (month days : Nat) : List Nat → Nat × Nat
  | [] => (month, days + 1)
  | length :: rest =>
    if days < length then (month, days + 1) else monthDay (month + 1) (days - length) rest

/-- The date `n` days after 1 January 1970. -/
def ofDayNumber (n : Int) : Date :=
  let days := n + epoch
  let year := yearOf days
  let (month, day) := monthDay 1 (days - daysBeforeYear year).toNat (monthLengths year)
  ⟨year, month, day⟩

end Date

end Pkix
