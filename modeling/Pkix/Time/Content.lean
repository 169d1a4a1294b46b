import Pkix.Bytes
import Pkix.Error
import Pkix.Time.Basic

/-!
# Times as the content of elements

A UTCTime begins `YYMMDDhhmm`, a GeneralizedTime `YYYYMMDDhhmm`. Seconds, a fraction of a second
and an offset from UTC follow, of which only the offset is required: `Z`, or a sign, two digits
of hours and two of minutes. Two digits of a year stand for 1950 to 2049.

* `Decimal.octets`: a number in a fixed count of ASCII digits, higher digits dropped.
* `Decimal.take?`: the number that a fixed count of digits at the start of the octets makes.
* `Decimal.span`: the digits at the start of the octets, and what follows them.
* `Time.ofContent`: reads a time of either kind.
* `Time.utcContent`, `Time.generalizedContent`: write a time in UTC and whole seconds, where its
  year has two or four digits. There is no answer for a time that is outside of the calendar in UTC.
-/

namespace Pkix

namespace Decimal

/-- The octet `x` is an ASCII digit. -/
def isDigit (x : UInt8) : Bool := 0x30 ≤ x && x ≤ 0x39

/-- The `width` lowest decimal digits of `n`. -/
def octets : Nat → Nat → Bytes
  | 0, _ => []
  | width + 1, n => octets width (n / 10) ++ [UInt8.ofNat (n % 10 + 48)]

/-- The number that the `digits` make. -/
def value (digits : Bytes) : Nat := digits.foldl (fun n x => n * 10 + (x.toNat - 48)) 0

/-- The number made of `width` digits at the start of the octets, and the octets after them. -/
def take? (width : Nat) (b : Bytes) : Option (Nat × Bytes) :=
  let digits := b.take width
  if digits.length = width ∧ digits.all isDigit then some (value digits, b.drop width) else none

/-- The digits at the start of the octets `b`, and the octets after them. -/
def span (b : Bytes) : Bytes × Bytes := (b.takeWhile isDigit, b.dropWhile isDigit)

end Decimal

namespace Time

/-- The complaint about a `content` that is no time of its `kind`. -/
def contentError (kind : TimeKind) (content : Bytes) : Error :=
  .malformed (.timeContent kind (content.toString?.getD ""))

/-- A number of `width` digits inside the `content`. -/
def takeDigits (content : Bytes) (width : Nat) (b : Bytes) : Except Error (Nat × Bytes) :=
  match Decimal.take? width b with
  | some r => .ok r
  | none => .error (.malformed (.timeDigits (content.toString?.getD "")))

/-- The full year that is meant by two digits, `twoDigits`. -/
def fullYear (twoDigits : Nat) : Nat :=
  if twoDigits < 50 then 2000 + twoDigits else 1900 + twoDigits

/-- The seconds at the start of `b`, which may be left out. -/
def takeSeconds (content b : Bytes) : Except Error (Nat × Bytes) :=
  match b with
  | [] => .ok (0, b)
  | x :: _ => if Decimal.isDigit x then takeDigits content 2 b else .ok (0, b)

/-- The nanoseconds that the `digits` of a fraction make; those past the ninth do not count. -/
def fractionNanos (digits : Bytes) : Nat :=
  Decimal.value ((digits ++ List.replicate 9 0x30).take 9)

/-- The fraction at the start of `b`, which may be left out, in nanoseconds. It follows a point or a
comma. -/
def takeFraction (kind : TimeKind) (content b : Bytes) : Except Error (Nat × Bytes) :=
  match b with
  | [] => .ok (0, b)
  | x :: rest =>
    if x = 0x2E ∨ x = 0x2C then
      let (digits, after) := Decimal.span rest
      if digits = [] then .error (contentError kind content)
      else .ok (fractionNanos digits, after)
    else .ok (0, b)

/-- The offset in seconds, which is all that is left of the `content`. It is at most 25 hours and 59
minutes. -/
def offsetSeconds (kind : TimeKind) (content : Bytes) : Bytes → Except Error Int
  | [0x5A] => .ok 0
  | [sign, h₁, h₂, m₁, m₂] =>
    if sign = 0x2B ∨ sign = 0x2D then do
      let (hours, _) ← takeDigits content 2 [h₁, h₂]
      let (minutes, _) ← takeDigits content 2 [m₁, m₂]
      if hours ≤ 25 ∧ minutes ≤ 59 then
        let seconds : Int := (hours * 3600 + minutes * 60 : Nat)
        return if sign = 0x2D then -seconds else seconds
      else .error (contentError kind content)
    else .error (contentError kind content)
  | _ => .error (contentError kind content)

/-- The fewest octets of a content of the kind. -/
def minContent : TimeKind → Nat
  | .utc => 11
  | .generalized => 13

/-- The time that the `content` denotes, in UTC. -/
def ofContent (kind : TimeKind) (content : Bytes) : Except Error Time := do
  if content.any (0x80 ≤ ·) then .error (.malformed (.timeNotAscii kind))
  else if content.length < minContent kind then .error (contentError kind content)
  else
    let (year, b) ← match kind with
      | .utc => do
        let (year, b) ← takeDigits content 2 content
        pure (fullYear year, b)
      | .generalized => takeDigits content 4 content
    let (month, b) ← takeDigits content 2 b
    let (day, b) ← takeDigits content 2 b
    let (hour, b) ← takeDigits content 2 b
    let (minute, b) ← takeDigits content 2 b
    let (second, b) ← takeSeconds content b
    let (nanos, b) ← takeFraction kind content b
    let offset ← offsetSeconds kind content b
    let reading : Reading := ⟨⟨year, month, day⟩, hour, minute, second⟩
    if !reading.valid then .error (contentError kind content)
    else
      let time : Time := ⟨reading.seconds - offset, nanos, 0⟩
      if lastYear < time.utcYear then .error .beyondCalendar else .ok time

/-- The month, day and time of day of a reading `r`, two digits each, and `Z`. -/
def restContent (r : Reading) : Bytes :=
  Decimal.octets 2 r.date.month ++ Decimal.octets 2 r.date.day ++ Decimal.octets 2 r.hour ++
    Decimal.octets 2 r.minute ++ Decimal.octets 2 r.second ++ [0x5A]

/-- The year of `t` in UTC is one of the calendar. -/
def InCalendar (t : Time) : Prop := firstYear ≤ t.utcYear ∧ t.utcYear ≤ lastYear

instance (t : Time) : Decidable t.InCalendar := inferInstanceAs (Decidable (_ ∧ _))

/-- What a clock in UTC shows at `t`, if its calendar goes so far. -/
def inUtc (t : Time) : Except Error Reading :=
  if t.InCalendar then .ok t.utcReading else .error .beyondCalendar

/-- The content of a UTCTime for `t`; the year lies between 1950 and 2049. -/
def utcContent (t : Time) : Except Error Bytes := do
  let r ← t.inUtc
  if 1950 ≤ r.date.year ∧ r.date.year < 2050 then
    return Decimal.octets 2 (r.date.year.toNat % 100) ++ restContent r
  else .error (.encoding (.year r.date.year .utc))

/-- The content of a GeneralizedTime for `t`; the year has at most four digits and no sign. -/
def generalizedContent (t : Time) : Except Error Bytes := do
  let r ← t.inUtc
  if 0 ≤ r.date.year ∧ r.date.year ≤ 9999 then
    return Decimal.octets 4 r.date.year.toNat ++ restContent r
  else .error (.encoding (.year r.date.year .generalized))

end Time

end Pkix
