import Pkix.Time.Calendar

/-!
# Points in time

A `Time` is a point in time to the nanosecond, seen on a clock with some offset from UTC. Two of
them are equal (`==`) if they are the same point in time, whatever the offsets.

* `Reading.seconds`/`Reading.ofSeconds`: a clock reading as seconds since the start of 1970 on the
  same clock, and back.
* `Time.reading`, `Time.utcYear`, `Time.localYear`: what the clock shows.
* `Time.text`: date, time of day, fraction and offset as text.
-/

namespace Pkix

/-- What a clock shows, to the second. -/
structure Reading where
  date : Date
  hour : Nat
  minute : Nat
  second : Nat
deriving DecidableEq, Repr

namespace Reading

/-- The day and the time of day of `r` exist. -/
def valid (r : Reading) : Bool :=
  r.date.valid && r.hour < 24 && r.minute < 60 && r.second < 60

/-- The seconds since the start of 1970 on the same clock as `r`. -/
def seconds (r : Reading) : Int :=
  r.date.dayNumber * 86400 + (r.hour * 3600 + r.minute * 60 + r.second : Nat)

/-- The reading `s` seconds after the start of 1970. -/
def ofSeconds (s : Int) : Reading where
  date := Date.ofDayNumber (s / 86400)
  hour := (s % 86400).toNat / 3600
  minute := (s % 86400).toNat / 60 % 60
  second := (s % 86400).toNat % 60

end Reading

/-- A point in time. -/
structure Time where
  /-- Whole seconds since the start of 1970 in UTC, rounded down. -/
  seconds : Int
  /-- Nanoseconds after the whole second. -/
  nanos : Nat
  /-- Seconds by which the clock is ahead of UTC. -/
  offset : Int
deriving DecidableEq, Repr

namespace Time

/-- The same point in time. -/
instance : BEq Time where
  beq a b := a.seconds == b.seconds && a.nanos == b.nanos

/-- A whole second, in UTC, by the `seconds` since 1970. -/
def utc (seconds : Int) : Time := ⟨seconds, 0, 0⟩

/-- The same point in time as `t` without its fraction of a second, in UTC. -/
def wholeSecond (t : Time) : Time := utc t.seconds

/-- What a clock in UTC shows at `t`. -/
def utcReading (t : Time) : Reading := Reading.ofSeconds t.seconds

/-- What a clock with the offset of `t` shows. -/
def reading (t : Time) : Reading := Reading.ofSeconds (t.seconds + t.offset)

/-- The year of `t` in UTC. -/
def utcYear (t : Time) : Int := t.utcReading.date.year

/-- The year of `t` on a clock with the offset of `t`. -/
def localYear (t : Time) : Int := t.reading.date.year

/-- The first and the last year of the calendar. -/
def firstYear : Int := -9999

/-- The last year of the calendar. -/
def lastYear : Int := 9999

/-- `a` comes before `b`. -/
def before (a b : Time) : Bool :=
  a.seconds < b.seconds || (a.seconds == b.seconds && a.nanos < b.nanos)

/-! ## Text -/

/-- Decimal text of `n` filled up with zeros to a `width`. -/
def padded (width n : Nat) : String :=
  let digits := n.repr
  "".pushn '0' (width - digits.length) ++ digits

/-- A year `y` in four digits, with a minus sign before year 0. -/
def yearText (y : Int) : String :=
  if y < 0 then "-" ++ padded 4 y.natAbs else padded 4 y.natAbs

/-- A fraction of a second, `nanos`, in as many digits as it needs, at least one. -/
def fractionText (nanos : Nat) : String :=
  match (padded 9 nanos).toList.reverse.dropWhile (· == '0') with
  | [] => "0"
  | digits => String.ofList digits.reverse

/-- An `offset` in hours, minutes and seconds with its sign. -/
def offsetText (offset : Int) : String :=
  let n := offset.natAbs
  (if offset < 0 then "-" else "+") ++ padded 2 (n / 3600) ++ ":" ++ padded 2 (n / 60 % 60) ++
    ":" ++ padded 2 (n % 60)

/-- Date, time of day and offset of `t`. The hour is not filled up. -/
def text (t : Time) : String :=
  let r := t.reading
  yearText r.date.year ++ "-" ++ padded 2 r.date.month ++ "-" ++ padded 2 r.date.day ++ " " ++
    r.hour.repr ++ ":" ++ padded 2 r.minute ++ ":" ++ padded 2 r.second ++ "." ++
    fractionText t.nanos ++ " " ++ offsetText t.offset

end Time

end Pkix
