import Pkix.Proofs.Der.Elements
import Pkix.Proofs.Refusals
import Pkix.Proofs.Time.Content

/-!
# Every content is a time, refused, or past the calendar

* `Time.Spells`: the grammar of times. A content spells a reading of a clock, the nanoseconds after
  it and how far the clock is ahead of UTC.
* `Time.spells_iff`: the reader takes in exactly this grammar; `Time.Spells.inRange`: no field of it
  is larger than its digits allow.
* `Der.Value.time_settles_unless_past_calendar`: a time is read or the encoding is at fault, unless
  a clock behind UTC shows the end of the last year of the calendar and UTC is past that year.
-/

namespace Pkix.Time

open Decimal

variable {kind : TimeKind} {content b rest : Bytes}

/-! ## The grammar -/

/-- The digits of a year `n`, of which a UTCTime has the last two. -/
inductive YearSpelled : TimeKind → Bytes → Nat → Prop
  | utc {n : Nat} (fits : Fits 2 n) : YearSpelled .utc (octets 2 n) (fullYear n)
  | generalized {n : Nat} (fits : Fits 4 n) : YearSpelled .generalized (octets 4 n) n

/-- The digits of the seconds `n`, or none. -/
inductive SecondsSpelled : Bytes → Nat → Prop
  | absent : SecondsSpelled [] 0
  | digits {n : Nat} (fits : Fits 2 n) : SecondsSpelled (octets 2 n) n

/-- A `mark`, which is a point or a comma, and the digits `ds` of a fraction, or nothing. -/
inductive FractionSpelled : Bytes → Nat → Prop
  | absent : FractionSpelled [] 0
  | digits {mark : UInt8} {ds : Bytes} (mark_eq : mark = 0x2E ∨ mark = 0x2C) (ne_nil : ds ≠ [])
      (isDigit : ds.all isDigit = true) : FractionSpelled (mark :: ds) (fractionNanos ds)

/-- How far a clock is ahead of UTC: not at all (`utc`), or by hours `h` and minutes `m` with a
sign. -/
inductive ZoneSpelled : Bytes → Int → Prop
  | utc : ZoneSpelled [0x5A] 0
  | ahead {h m : Nat} (hours : h ≤ 25) (minutes : m ≤ 59) :
      ZoneSpelled (0x2B :: (octets 2 h ++ octets 2 m)) (h * 3600 + m * 60 : Nat)
  | behind {h m : Nat} (hours : h ≤ 25) (minutes : m ≤ 59) :
      ZoneSpelled (0x2D :: (octets 2 h ++ octets 2 m)) (-(h * 3600 + m * 60 : Nat))

/-- A content is the digits of a reading, `y` to `s`, a fraction `f` and a zone `z`. -/
inductive Spells (kind : TimeKind) : Bytes → Reading → Nat → Int → Prop
  | mk {y s f z : Bytes} {year month day hour minute second nanos : Nat} {offset : Int}
      (year_spelled : YearSpelled kind y year)
      (month_fits : Fits 2 month) (day_fits : Fits 2 day)
      (hour_fits : Fits 2 hour) (minute_fits : Fits 2 minute)
      (second_spelled : SecondsSpelled s second) (fraction_spelled : FractionSpelled f nanos)
      (zone_spelled : ZoneSpelled z offset) :
      Spells kind
        (y ++ (octets 2 month ++ (octets 2 day ++ (octets 2 hour ++ (octets 2 minute ++
          (s ++ (f ++ z)))))))
        ⟨⟨year, month, day⟩, hour, minute, second⟩ nanos offset

/-! ## The reader takes in the grammar -/

theorem takeYear_eq_ok {n : Nat} :
    takeYear kind content = .ok (n, rest) ↔ ∃ y, YearSpelled kind y n ∧ content = y ++ rest := by
  cases kind with
  | utc =>
    simp only [takeYear, bind_eq_ok, pure_eq_ok, Prod.exists, Prod.mk.injEq, takeDigits_eq_ok]
    constructor
    · rintro ⟨m, _, ⟨hfits, rfl⟩, rfl, rfl⟩
      exact ⟨_, .utc hfits, rfl⟩
    · rintro ⟨_, hy, rfl⟩
      cases hy with
      | utc fits => exact ⟨_, _, ⟨fits, rfl⟩, rfl, rfl⟩
  | generalized =>
    simp only [takeYear, takeDigits_eq_ok]
    constructor
    · rintro ⟨hfits, rfl⟩
      exact ⟨_, .generalized hfits, rfl⟩
    · rintro ⟨_, hy, rfl⟩
      cases hy with
      | generalized fits => exact ⟨fits, rfl⟩

/-- The octets `b` do not begin as a fraction does. -/
def NoMark (b : Bytes) : Prop := ∀ x ∈ b.head?, ¬(x = 0x2E ∨ x = 0x2C)

theorem takeSeconds_eq_ok {n : Nat} :
    takeSeconds content b = .ok (n, rest) ↔
      ∃ s, SecondsSpelled s n ∧ b = s ++ rest ∧ (s = [] → NoDigit rest) := by
  constructor
  · intro h
    unfold takeSeconds at h
    split at h
    · cases h
      exact ⟨[], .absent, rfl, fun _ => by simp [NoDigit]⟩
    · rename_i x tail
      by_cases hx : isDigit x = true
      · rw [if_pos hx, takeDigits_eq_ok] at h
        refine ⟨_, .digits h.1, h.2, fun hnil => ?_⟩
        have hlength := length_octets 2 n
        rw [hnil] at hlength
        cases hlength
      · rw [if_neg hx] at h
        cases h
        exact ⟨[], .absent, rfl, fun _ => by simpa [NoDigit] using hx⟩
  · rintro ⟨s, hs, rfl, hrest⟩
    cases hs with
    | digits fits => exact takeSeconds_octets fits
    | absent =>
      cases rest with
      | nil => rfl
      | cons x tail =>
        have hx : isDigit x = false := hrest rfl x rfl
        rw [List.nil_append, takeSeconds, hx]
        rfl

theorem takeFraction_eq_ok {n : Nat} :
    takeFraction kind content b = .ok (n, rest) ↔
      ∃ f, FractionSpelled f n ∧ b = f ++ rest ∧ (f = [] → NoMark rest) ∧
        (f ≠ [] → NoDigit rest) := by
  constructor
  · intro h
    unfold takeFraction at h
    split at h
    · cases h
      exact ⟨[], .absent, rfl, fun _ => by simp [NoMark], fun hne => absurd rfl hne⟩
    · rename_i x tail
      by_cases hx : x = 0x2E ∨ x = 0x2C
      · rw [if_pos hx, Decimal.span] at h
        simp only [error_ite_eq_ok, Except.ok.injEq, Prod.mk.injEq] at h
        obtain ⟨hne, rfl, rfl⟩ := h
        refine ⟨_, .digits hx hne List.all_takeWhile, ?_,
          fun hnil => absurd hnil (List.cons_ne_nil _ _), fun _ y hy => ?_⟩
        · rw [List.cons_append, List.takeWhile_append_dropWhile]
        · exact noDigit_dropWhile tail y hy
      · rw [if_neg hx] at h
        cases h
        exact ⟨[], .absent, rfl, fun _ => by simpa [NoMark] using hx, fun hne => absurd rfl hne⟩
  · rintro ⟨f, hf, rfl, hmark, hdigit⟩
    cases hf with
    | absent =>
      cases rest with
      | nil => rfl
      | cons x tail => exact if_neg (hmark rfl x rfl)
    | @digits mark ds mark_eq ne_nil all =>
      have hstop : NoDigit rest := hdigit (List.cons_ne_nil _ _)
      have hspan : Decimal.span (ds ++ rest) = (ds, rest) := span_append all hstop
      simp only [List.cons_append, takeFraction, if_pos mark_eq, hspan, if_neg ne_nil]

theorem octets_two (n : Nat) :
    octets 2 n = [UInt8.ofNat (n / 10 % 10 + 48), UInt8.ofNat (n % 10 + 48)] := rfl

theorem offsetSeconds_eq_ok {offset : Int} :
    offsetSeconds kind content b = .ok offset ↔ ZoneSpelled b offset := by
  constructor
  · intro h
    unfold offsetSeconds at h
    split at h
    · cases h
      exact .utc
    · rename_i sign h₁ h₂ m₁ m₂
      simp only [ite_error_eq_ok, bind_eq_ok, pure_eq_ok, Prod.exists, takeDigits_eq_ok] at h
      obtain ⟨hsign, hours, restHours, ⟨-, hh⟩, minutes, restMinutes, ⟨-, hm⟩, ⟨hhours, hminutes⟩,
        rfl⟩ := h
      -- two digits are taken from two octets, so nothing is left
      simp only [octets_two, List.cons_append, List.nil_append, List.cons.injEq] at hh hm
      obtain ⟨rfl, rfl, -⟩ := hh
      obtain ⟨rfl, rfl, -⟩ := hm
      rcases hsign with rfl | rfl
      · exact .ahead hhours hminutes
      · exact .behind hhours hminutes
    · cases h
  · intro h
    cases h with
    | utc => rfl
    | @ahead h m hours minutes | @behind h m hours minutes =>
      have hh : takeDigits content 2 (octets 2 h) = .ok (h, []) :=
        takeDigits_eq_ok.mpr ⟨fits_two (by omega), (List.append_nil _).symm⟩
      have hm : takeDigits content 2 (octets 2 m) = .ok (m, []) :=
        takeDigits_eq_ok.mpr ⟨fits_two (by omega), (List.append_nil _).symm⟩
      rw [octets_two] at hh hm
      simp only [octets_two, List.cons_append, List.nil_append, offsetSeconds, ite_error_eq_ok,
        bind_eq_ok]
      exact ⟨by decide, _, hh, _, hm, ⟨hours, minutes⟩, rfl⟩

/-- A zone `z` begins neither as the seconds nor as a fraction do. -/
theorem ZoneSpelled.stops {z : Bytes} {offset : Int} (h : ZoneSpelled z offset) :
    NoDigit z ∧ NoMark z := by
  cases h <;> simp [NoDigit, NoMark] <;> decide

theorem FractionSpelled.noDigit_append {f : Bytes} {nanos : Nat} (h : FractionSpelled f nanos)
    (hrest : NoDigit rest) : NoDigit (f ++ rest) := by
  cases h with
  | absent => exact hrest
  | digits mark_eq ne_nil all =>
    intro x hx
    obtain rfl := Option.some.inj hx
    rcases mark_eq with rfl | rfl <;> decide

/-- What is read as a reading `r` and a zone is what spells them. -/
theorem spells_iff {r : Reading} {nanos : Nat} {offset : Int} :
    Spells kind content r nanos offset ↔
      ∃ zone, takeReading kind content = .ok (r, nanos, zone) ∧
        offsetSeconds kind content zone = .ok offset := by
  constructor
  · rintro ⟨hyear, hmonth, hday, hhour, hminute, hsecond, hfraction, hzone⟩
    obtain ⟨hnoDigit, hnoMark⟩ := hzone.stops
    refine ⟨_, ?_, offsetSeconds_eq_ok.mpr hzone⟩
    simp only [takeReading, bind_eq_ok]
    exact ⟨_, takeYear_eq_ok.mpr ⟨_, hyear, rfl⟩, _, takeDigits_octets hmonth,
      _, takeDigits_octets hday, _, takeDigits_octets hhour, _, takeDigits_octets hminute,
      _, takeSeconds_eq_ok.mpr ⟨_, hsecond, rfl, fun _ => hfraction.noDigit_append hnoDigit⟩,
      _, takeFraction_eq_ok.mpr ⟨_, hfraction, rfl, fun _ => hnoMark, fun _ => hnoDigit⟩, rfl⟩
  · rintro ⟨zone, hreading, hzone⟩
    simp only [takeReading, bind_eq_ok, pure_eq_ok, Prod.exists, Prod.mk.injEq, takeYear_eq_ok,
      takeDigits_eq_ok, takeSeconds_eq_ok, takeFraction_eq_ok] at hreading
    obtain ⟨year, _, ⟨y, hyear, rfl⟩, month, _, ⟨hmonth, rfl⟩, day, _, ⟨hday, rfl⟩, hour, _,
      ⟨hhour, rfl⟩, minute, _, ⟨hminute, rfl⟩, second, _, ⟨s, hsecond, rfl, -⟩, fraction, _,
      ⟨f, hfraction, rfl, -⟩, rfl, rfl, rfl⟩ := hreading
    exact .mk hyear hmonth hday hhour hminute hsecond hfraction (offsetSeconds_eq_ok.mp hzone)

/-! ## Reading is total -/

theorem YearSpelled.ascii {y : Bytes} {n : Nat} (h : YearSpelled kind y n) :
    y.any (0x80 ≤ ·) = false := by
  cases h <;> exact ascii_octets _ _

theorem SecondsSpelled.ascii {s : Bytes} {n : Nat} (h : SecondsSpelled s n) :
    s.any (0x80 ≤ ·) = false := by
  cases h with
  | absent => rfl
  | digits fits => exact ascii_octets _ _

theorem FractionSpelled.ascii {f : Bytes} {n : Nat} (h : FractionSpelled f n) :
    f.any (0x80 ≤ ·) = false := by
  cases h with
  | absent => rfl
  | @digits mark ds mark_eq ne_nil all =>
    have hds : ds.any (0x80 ≤ ·) = false := by
      rw [List.any_eq_false]
      intro x hx
      rw [decide_eq_true_eq]
      exact not_0x80_le_of_isDigit (List.all_eq_true.mp all x hx)
    rcases mark_eq with rfl | rfl <;> simp [hds]

theorem ZoneSpelled.ascii {z : Bytes} {offset : Int} (h : ZoneSpelled z offset) :
    z.any (0x80 ≤ ·) = false := by
  cases h with
  | utc => decide
  | ahead hours minutes | behind hours minutes =>
    simp only [List.any_cons, List.any_append, ascii_octets]
    decide

variable {r : Reading} {nanos : Nat} {offset : Int}

theorem Spells.ascii (h : Spells kind content r nanos offset) :
    content.any (0x80 ≤ ·) = false := by
  obtain ⟨hyear, -, -, -, -, hsecond, hfraction, hzone⟩ := h
  simp only [List.any_append, hyear.ascii, ascii_octets, hsecond.ascii, hfraction.ascii,
    hzone.ascii, Bool.or_false]

theorem YearSpelled.length_add {y : Bytes} {n : Nat} (h : YearSpelled kind y n) :
    y.length + 9 = minContent kind := by
  cases h <;> rw [length_octets] <;> rfl

theorem ZoneSpelled.length_pos {z : Bytes} {offset : Int} (h : ZoneSpelled z offset) :
    0 < z.length := by
  cases h <;> exact Nat.succ_pos _

theorem Spells.minContent_le (h : Spells kind content r nanos offset) :
    minContent kind ≤ content.length := by
  obtain ⟨hyear, -, -, -, -, -, -, hzone⟩ := h
  simp only [List.length_append, length_octets]
  have hfront := hyear.length_add
  have hback := hzone.length_pos
  omega

/-- A `content` that is spelled by the grammar is read, unless its reading does not exist or lies
past the calendar in UTC (`ofReading`). -/
theorem ofContent_of_spells (h : Spells kind content r nanos offset) :
    ofContent kind content = ofReading kind content r nanos offset := by
  obtain ⟨zone, hreading, hzone⟩ := spells_iff.mp h
  rw [ofContent_eq, h.ascii, if_neg Bool.false_ne_true, if_neg (Nat.not_lt.mpr h.minContent_le)]
  simp only [hreading, hzone, bind, Except.bind]

@[simp]
theorem onlyMalformed_takeDigits (width : Nat) : OnlyMalformed (takeDigits content width b) := by
  unfold takeDigits
  split <;> simp

@[simp]
theorem onlyMalformed_takeYear : OnlyMalformed (takeYear kind content) := by
  cases kind <;> simp [takeYear]

@[simp]
theorem onlyMalformed_takeSeconds : OnlyMalformed (takeSeconds content b) := by
  unfold takeSeconds
  split
  · simp
  · split <;> simp

@[simp]
theorem onlyMalformed_takeFraction : OnlyMalformed (takeFraction kind content b) := by
  unfold takeFraction
  split
  · simp
  · simp [contentError]

@[simp]
theorem onlyMalformed_offsetSeconds : OnlyMalformed (offsetSeconds kind content b) := by
  unfold offsetSeconds
  split <;> simp [contentError]

@[simp]
theorem onlyMalformed_takeReading : OnlyMalformed (takeReading kind content) := by
  simp [takeReading]

/-- A `content` that is not spelled by the grammar is refused for its encoding. -/
theorem onlyMalformed_ofContent (h : ∀ r nanos offset, ¬Spells kind content r nanos offset) :
    OnlyMalformed (ofContent kind content) := by
  rw [ofContent_eq]
  simp only [failsWith_ite, failsWith_error, failsWith_bind, onlyMalformed_takeReading,
    onlyMalformed_offsetSeconds, contentError, Error.isMalformed_malformed, implies_true, true_and]
  rintro - - ⟨r, nanos, zone⟩ hreading offset hzone
  exact absurd (spells_iff.mpr ⟨zone, hreading, hzone⟩) (h r nanos offset)

/-! ## How large the fields are -/

/-- Every field of `r`, `nanos` and `offset` is as large as its digits allow at most, which is well
within a machine word. -/
structure InRange (r : Reading) (nanos : Nat) (offset : Int) : Prop where
  year : 0 ≤ r.date.year ∧ r.date.year ≤ lastYear
  month : r.date.month < 100
  day : r.date.day < 100
  hour : r.hour < 100
  minute : r.minute < 100
  second : r.second < 100
  nanos : nanos < 1000000000
  offset : -93540 ≤ offset ∧ offset ≤ 93540

theorem lt_of_fits_two {n : Nat} (h : Fits 2 n) : n < 100 := by
  simp only [Fits] at h
  omega

theorem YearSpelled.le_lastYear {y : Bytes} {n : Nat} (h : YearSpelled kind y n) :
    (n : Int) ≤ lastYear := by
  show (n : Int) ≤ 9999
  cases h with
  | utc fits =>
    have := lt_of_fits_two fits
    unfold fullYear
    split <;> omega
  | generalized fits =>
    simp only [Fits] at fits
    omega

theorem SecondsSpelled.lt {s : Bytes} {n : Nat} (h : SecondsSpelled s n) : n < 100 := by
  cases h with
  | absent => decide
  | digits fits => exact lt_of_fits_two fits

/-- A fraction `ds` filled up to nine digits is less than a second. -/
theorem fractionNanos_lt {ds : Bytes} (h : ds.all isDigit = true) :
    fractionNanos ds < 1000000000 := by
  have hall : ((ds ++ List.replicate 9 0x30).take 9).all isDigit = true := by
    rw [List.all_eq_true]
    intro x hx
    rcases List.mem_append.mp (List.mem_of_mem_take hx) with hx | hx
    · exact List.all_eq_true.mp h x hx
    · rw [List.eq_of_mem_replicate hx]
      decide
  have hlength : ((ds ++ List.replicate 9 (0x30 : UInt8)).take 9).length = 9 := by simp
  have hfits := (octets_value hall).1
  rw [hlength] at hfits
  simp only [Fits] at hfits
  unfold fractionNanos
  omega

theorem FractionSpelled.lt {f : Bytes} {n : Nat} (h : FractionSpelled f n) : n < 1000000000 := by
  cases h with
  | absent => decide
  | digits mark_eq ne_nil all => exact fractionNanos_lt all

theorem ZoneSpelled.bounds {z : Bytes} {offset : Int} (h : ZoneSpelled z offset) :
    -93540 ≤ offset ∧ offset ≤ 93540 := by
  cases h <;> omega

theorem Spells.inRange (h : Spells kind content r nanos offset) : InRange r nanos offset := by
  obtain ⟨hyear, hmonth, hday, hhour, hminute, hsecond, hfraction, hzone⟩ := h
  exact {
    year := ⟨Int.natCast_nonneg _, hyear.le_lastYear⟩
    month := lt_of_fits_two hmonth
    day := lt_of_fits_two hday
    hour := lt_of_fits_two hhour
    minute := lt_of_fits_two hminute
    second := hsecond.lt
    nanos := hfraction.lt
    offset := hzone.bounds }

/-! ## The end of the calendar -/

/-- The last second of the calendar, of the year `lastYear`. -/
def lastSecond : Int := 253402300799

theorem lastYear_lt_utcYear_iff {s : Int} : lastYear < (utc s).utcYear ↔ lastSecond < s := by
  rw [Int.lt_iff_add_one_le, le_utcYear_iff]
  have hstart : (Date.daysBeforeYear (lastYear + 1) - Date.epoch) * 86400 = lastSecond + 1 := by
    decide
  rw [hstart, ← Int.lt_iff_add_one_le]
  rfl

/-- A clock shows a time of the last year of the calendar in `content`, and in UTC it is past the
calendar. -/
def PastCalendar (content : Bytes) : Prop :=
  ∃ r nanos offset, Spells .generalized content r nanos offset ∧ r.valid = true ∧
    r.date.year = lastYear ∧ lastSecond < r.seconds - offset

theorem YearSpelled.lt_of_utc {y : Bytes} {n : Nat} (h : YearSpelled .utc y n) : n < 2050 := by
  cases h with
  | utc fits =>
    have := lt_of_fits_two fits
    unfold fullYear
    split <;> omega

theorem Spells.lt_of_utc (h : Spells .utc content r nanos offset) : r.date.year < 2050 := by
  obtain ⟨hyear, -⟩ := h
  exact Int.ofNat_lt.mpr hyear.lt_of_utc

/-- No clock is so far behind UTC that another year of it than `lastYear` ends past the calendar. -/
theorem Spells.eq_lastYear (h : Spells kind content r nanos offset) (hvalid : r.valid = true)
    (hpast : lastSecond < r.seconds - offset) : r.date.year = lastYear := by
  obtain ⟨⟨-, hyear⟩, -, -, -, -, -, -, hoffset, -⟩ := h.inRange
  refine Int.le_antisymm hyear (Int.not_lt.mp fun hlt => ?_)
  have hbefore := Reading.seconds_lt hvalid
  have hmono := Date.daysBeforeYear_mono (Int.lt_iff_add_one_le.mp hlt)
  have hstart : Date.daysBeforeYear lastYear - Date.epoch = 2932532 := by decide
  simp only [lastSecond] at hpast
  omega

theorem ofReading_eq_error {e : Error} :
    ofReading kind content r nanos offset = .error e ↔
      r.valid = false ∧ contentError kind content = e ∨
        r.valid = true ∧ lastSecond < r.seconds - offset ∧ Error.beyondCalendar = e := by
  simp only [ofReading, lastYear_lt_utcYear_iff]
  cases r.valid
  · simp
  · by_cases hpast : lastSecond < r.seconds - offset <;> simp [hpast]

/-- Reading `content` fails in no other way than by refusing the encoding, except past the
calendar. -/
theorem ofContent_eq_beyondCalendar :
    ofContent kind content = .error .beyondCalendar ↔
      kind = .generalized ∧ PastCalendar content := by
  constructor
  · intro h
    by_cases hspelled : ∃ r nanos offset, Spells kind content r nanos offset
    · obtain ⟨r, nanos, offset, hspells⟩ := hspelled
      rw [ofContent_of_spells hspells, ofReading_eq_error] at h
      obtain ⟨-, h⟩ | ⟨hvalid, hpast, -⟩ := h
      · cases h
      · have hyear := hspells.eq_lastYear hvalid hpast
        cases kind with
        | utc =>
          have := hspells.lt_of_utc
          rw [hyear] at this
          exact absurd this (by decide)
        | generalized => exact ⟨rfl, r, nanos, offset, hspells, hvalid, hyear, hpast⟩
    · simp only [not_exists] at hspelled
      exact (onlyMalformed_ofContent hspelled _ h).elim
  · rintro ⟨rfl, r, nanos, offset, hspells, hvalid, -, hpast⟩
    rw [ofContent_of_spells hspells, ofReading_eq_error]
    exact .inr ⟨hvalid, hpast, rfl⟩

theorem exists_spells_of_ofContent {t : Time} (h : ofContent kind content = .ok t) :
    ∃ r nanos offset, Spells kind content r nanos offset ∧ r.valid = true ∧
      ¬lastYear < (utc (r.seconds - offset)).utcYear ∧ ⟨r.seconds - offset, nanos, 0⟩ = t := by
  obtain ⟨-, -, r, nanos, zone, offset, hreading, hzone, htime⟩ := ofContent_eq_ok.mp h
  exact ⟨r, nanos, offset, spells_iff.mpr ⟨zone, hreading, hzone⟩, ofReading_eq_ok.mp htime⟩

/-- A time `t` that is read lies in the calendar, and not before the last hours of the year before
year 0. -/
theorem utcYear_of_ofContent {t : Time} (h : ofContent kind content = .ok t) :
    -1 ≤ t.utcYear ∧ t.utcYear ≤ lastYear := by
  obtain ⟨r, nanos, offset, hspells, hvalid, hlast, rfl⟩ := exists_spells_of_ofContent h
  obtain ⟨⟨hyear, -⟩, -, -, -, -, -, -, -, hoffset⟩ := hspells.inRange
  refine ⟨le_utcYear_iff.mpr ?_, Int.not_lt.mp hlast⟩
  have hstart := Reading.le_seconds hvalid
  have hmono := Date.daysBeforeYear_mono hyear
  have hzero : Date.daysBeforeYear 0 = 0 := by decide
  have hbefore : Date.daysBeforeYear (-1) = -365 := by decide
  show _ ≤ r.seconds - offset
  omega

/-- The answer is a time `t` of the calendar in UTC, or the encoding is at fault. -/
def Settles : Except Error Time → Prop
  | .ok t => firstYear ≤ t.utcYear ∧ t.utcYear ≤ lastYear ∧ t.nanos < 1000000000 ∧ t.offset = 0
  | .error e => e.IsMalformed

theorem Settles.ne_beyondCalendar {x : Except Error Time} (h : Settles x) :
    x ≠ .error .beyondCalendar := by
  rintro rfl
  exact h

theorem settles_ofContent (h : ¬(kind = .generalized ∧ PastCalendar content)) :
    Settles (ofContent kind content) := by
  cases hread : ofContent kind content with
  | ok t =>
    obtain ⟨hfirst, hlast⟩ := utcYear_of_ofContent hread
    obtain ⟨r, nanos, offset, hspells, -, -, rfl⟩ := exists_spells_of_ofContent hread
    exact ⟨Int.le_trans (by decide) hfirst, hlast, hspells.inRange.nanos, rfl⟩
  | error e =>
    by_cases hspelled : ∃ r nanos offset, Spells kind content r nanos offset
    · obtain ⟨r, nanos, offset, hspells⟩ := hspelled
      rw [ofContent_of_spells hspells, ofReading_eq_error] at hread
      obtain ⟨-, rfl⟩ | ⟨hvalid, hpast, rfl⟩ := hread
      · exact trivial
      · rw [← ofContent_eq_beyondCalendar, ofContent_of_spells hspells, ofReading_eq_error] at h
        exact absurd (.inr ⟨hvalid, hpast, rfl⟩) h
    · simp only [not_exists] at hspelled
      exact onlyMalformed_ofContent hspelled _ hread

end Pkix.Time

namespace Pkix.Der.Value

variable (v : Value)

/-- `v` is a GeneralizedTime that is past the calendar in UTC. -/
def PastCalendar : Prop := v.is Tag.generalizedTime = true ∧ Time.PastCalendar v.content

theorem settles_require {tag : UInt8} {name : String} {x : Except Error Time}
    (h : v.is tag = true → Time.Settles x) :
    Time.Settles (do v.require tag name; x) := by
  by_cases his : v.is tag = true
  · rw [require, if_pos his]
    exact h his
  · rw [require, if_neg his]
    exact trivial

theorem settles_utcTime : Time.Settles v.utcTime :=
  v.settles_require fun _ => Time.settles_ofContent fun h => nomatch h.1

theorem settles_generalizedTime (h : ¬v.PastCalendar) : Time.Settles v.generalizedTime :=
  v.settles_require fun his => Time.settles_ofContent fun hpast => h ⟨his, hpast.2⟩

theorem generalizedTime_eq_beyondCalendar :
    v.generalizedTime = .error .beyondCalendar ↔ v.PastCalendar := by
  rw [generalizedTime, bind_eq_error]
  constructor
  · rintro (hrequire | ⟨u, hrequire, hread⟩)
    · exact (onlyMalformed_require v Tag.generalizedTime _ _ hrequire).elim
    · have his : v.is Tag.generalizedTime = true := (ite_error_eq_ok.mp hrequire).1
      exact ⟨his, (Time.ofContent_eq_beyondCalendar.mp hread).2⟩
  · rintro ⟨his, hpast⟩
    exact .inr ⟨(), if_pos his, Time.ofContent_eq_beyondCalendar.mpr ⟨rfl, hpast⟩⟩

/-- A value has one tag, so `v.time` reads one that is past the calendar as `v.generalizedTime`
does. -/
theorem PastCalendar.time_eq {v : Value} (h : v.PastCalendar) : v.time = v.generalizedTime := by
  have hvalue : v = ofOctet Tag.generalizedTime v.content := is_iff.mp h.1
  rw [time, hvalue]
  rfl

theorem time_cases : v.time = v.utcTime ∨ v.time = v.generalizedTime := by
  unfold time
  split
  · exact .inl rfl
  · exact .inr rfl

/-- **Times past the calendar.** Reading `v` as a time gives one within the calendar or refuses the
encoding (`Settles`), with one exception: a GeneralizedTime at the end of the last year whose clock
is so far behind UTC that it is past the calendar in UTC (`PastCalendar`). No field of a time is out
of range before that (`InRange`). -/
theorem time_settles_unless_past_calendar :
    Time.Settles v.utcTime ∧
    (v.generalizedTime = .error .beyondCalendar ↔ v.PastCalendar) ∧
    (v.time = .error .beyondCalendar ↔ v.PastCalendar) ∧
    (v.PastCalendar ∨ Time.Settles v.generalizedTime ∧ Time.Settles v.time) ∧
    ∀ kind r nanos offset, Time.Spells kind v.content r nanos offset →
      Time.InRange r nanos offset := by
  have hgeneralized : v.PastCalendar ∨ Time.Settles v.generalizedTime :=
    or_iff_not_imp_left.mpr v.settles_generalizedTime
  refine ⟨v.settles_utcTime, v.generalizedTime_eq_beyondCalendar, ?_, ?_,
    fun _ _ _ _ h => h.inRange⟩
  · constructor
    · intro h
      rcases v.time_cases with htime | htime
      · rw [htime] at h
        exact absurd h v.settles_utcTime.ne_beyondCalendar
      · rwa [htime, generalizedTime_eq_beyondCalendar] at h
    · intro h
      rw [h.time_eq]
      exact v.generalizedTime_eq_beyondCalendar.mpr h
  · rcases hgeneralized with hpast | hsettles
    · exact .inl hpast
    · refine .inr ⟨hsettles, ?_⟩
      rcases v.time_cases with htime | htime
      · rw [htime]
        exact v.settles_utcTime
      · rwa [htime]

/-- One minute behind UTC, one second before the end of the calendar: `99991231235959-0001`. -/
def pastCalendar : Value :=
  ofOctet Tag.generalizedTime
    (Decimal.octets 4 9999 ++ Decimal.octets 2 12 ++ Decimal.octets 2 31 ++ Decimal.octets 2 23 ++
      Decimal.octets 2 59 ++ Decimal.octets 2 59 ++ 0x2D :: Decimal.octets 4 1)

theorem generalizedTime_pastCalendar :
    pastCalendar.generalizedTime = .error .beyondCalendar ∧
      pastCalendar.time = .error .beyondCalendar ∧
      ¬Time.Settles pastCalendar.generalizedTime := by
  have hread : pastCalendar.generalizedTime = .error .beyondCalendar := by decide
  refine ⟨hread, by decide, ?_⟩
  rw [hread]
  exact id

end Pkix.Der.Value
