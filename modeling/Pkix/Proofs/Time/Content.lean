import Pkix.Proofs.Decimal
import Pkix.Proofs.Except
import Pkix.Proofs.Time.Calendar
import Pkix.Time.Content

/-!
# Times that are written are read back

* `Time.refusal`: why a time has no content of a kind.
* `Time.utcContent_eq`, `Time.generalizedContent_eq`: the content of a time, or its refusal.
* `Time.ofContent_eq`: a content is a reading of a clock, then the zone of the clock.
* `Time.ofContent_generalizedContent`, `Time.ofContent_utcContent`: what is written as one of the
  two types is read as the whole second of the time.
-/

namespace Pkix.Time

open Decimal

/-! ## Writing -/

/-- Why `t` has no content of the `kind`, where it has none: its year in UTC cannot be spelled, or
there is no such year in the calendar. -/
def refusal (t : Time) (kind : TimeKind) : Error :=
  if t.InCalendar then .encoding (.year t.utcYear kind) else .beyondCalendar

theorem refusal_of_inCalendar {t : Time} {kind : TimeKind} (h : t.InCalendar) :
    t.refusal kind = .encoding (.year t.utcYear kind) := if_pos h

/-- A content that is there for some years of the calendar, those of `P`, is made from what a clock
in UTC shows or refused. -/
theorem inUtc_bind_ite {t : Time} {kind : TimeKind} {P : Reading → Prop} [DecidablePred P]
    {content : Reading → Bytes} (h : P t.utcReading → t.InCalendar) :
    (t.inUtc >>= fun r =>
        if P r then pure (content r) else .error (.encoding (.year r.date.year kind))) =
      if P t.utcReading then .ok (content t.utcReading) else .error (t.refusal kind) := by
  unfold inUtc refusal
  by_cases hcalendar : t.InCalendar
  · rw [if_pos hcalendar, if_pos hcalendar]
    rfl
  · rw [if_neg hcalendar, if_neg hcalendar, if_neg fun hP => hcalendar (h hP)]
    rfl

/-- What is written for `t` as a UTCTime, or why nothing can be. -/
theorem utcContent_eq (t : Time) :
    t.utcContent = if 1950 ≤ t.utcYear ∧ t.utcYear < 2050 then
        .ok (octets 2 (t.utcYear.toNat % 100) ++ restContent t.utcReading)
      else .error (t.refusal .utc) := by
  have hcalendar (h : 1950 ≤ t.utcYear ∧ t.utcYear < 2050) : t.InCalendar :=
    ⟨(show (-9999 : Int) ≤ _ by omega), (show _ ≤ (9999 : Int) by omega)⟩
  exact inUtc_bind_ite hcalendar

/-- What is written for `t` as a GeneralizedTime, or why nothing can be. -/
theorem generalizedContent_eq (t : Time) :
    t.generalizedContent = if 0 ≤ t.utcYear ∧ t.utcYear ≤ 9999 then
        .ok (octets 4 t.utcYear.toNat ++ restContent t.utcReading)
      else .error (t.refusal .generalized) := by
  have hcalendar (h : 0 ≤ t.utcYear ∧ t.utcYear ≤ 9999) : t.InCalendar :=
    ⟨(show (-9999 : Int) ≤ _ by omega), h.2⟩
  exact inUtc_bind_ite hcalendar

theorem generalizedContent_eq_ok {t : Time} {b : Bytes} :
    t.generalizedContent = .ok b ↔ (0 ≤ t.utcYear ∧ t.utcYear ≤ 9999) ∧
      octets 4 t.utcYear.toNat ++ restContent t.utcReading = b := by
  rw [generalizedContent_eq, ite_error_eq_ok, Except.ok.injEq]

theorem utcContent_eq_ok {t : Time} {b : Bytes} :
    t.utcContent = .ok b ↔ (1950 ≤ t.utcYear ∧ t.utcYear < 2050) ∧
      octets 2 (t.utcYear.toNat % 100) ++ restContent t.utcReading = b := by
  rw [utcContent_eq, ite_error_eq_ok, Except.ok.injEq]

theorem length_restContent (r : Reading) : (restContent r).length = 11 := by
  simp [restContent, length_octets]

theorem length_generalizedContent {t : Time} {b : Bytes} (h : t.generalizedContent = .ok b) :
    b.length = 15 := by
  rw [← (generalizedContent_eq_ok.mp h).2, List.length_append, length_octets, length_restContent]

theorem not_0x80_le_of_isDigit {x : UInt8} (h : isDigit x = true) : ¬0x80 ≤ x := by
  simp only [isDigit, Bool.and_eq_true, decide_eq_true_eq] at h
  intro hx
  exact absurd (UInt8.le_trans hx h.2) (by decide)

theorem ascii_octets (width n : Nat) : (octets width n).any (0x80 ≤ ·) = false := by
  rw [List.any_eq_false]
  intro x hx
  rw [decide_eq_true_eq]
  exact not_0x80_le_of_isDigit (isDigit_of_mem_octets hx)

/-- Digits and the letter of `restContent` are ASCII. -/
theorem ascii_restContent (width n : Nat) (r : Reading) :
    (octets width n ++ restContent r).any (0x80 ≤ ·) = false := by
  simp only [restContent, List.any_append, ascii_octets]
  rfl

/-! ## Reading, in three parts -/

variable {content b rest : Bytes} {kind : TimeKind}

/-- Reads the year at the start of `content`. -/
def takeYear (kind : TimeKind) (content : Bytes) : Except Error (Nat × Bytes) :=
  match kind with
  | .utc => do
    let (year, b) ← takeDigits content 2 content
    pure (fullYear year, b)
  | .generalized => takeDigits content 4 content

/-- Reads what the clock shows and the nanoseconds after it, up to the zone, from `content`. -/
def takeReading (kind : TimeKind) (content : Bytes) : Except Error (Reading × Nat × Bytes) := do
  let (year, b) ← takeYear kind content
  let (month, b) ← takeDigits content 2 b
  let (day, b) ← takeDigits content 2 b
  let (hour, b) ← takeDigits content 2 b
  let (minute, b) ← takeDigits content 2 b
  let (second, b) ← takeSeconds content b
  let (nanos, b) ← takeFraction kind content b
  return (⟨⟨year, month, day⟩, hour, minute, second⟩, nanos, b)

/-- The time at which a clock that is ahead by the `offset` shows `r`, and `nanos` nanoseconds
more. -/
def ofReading (kind : TimeKind) (content : Bytes) (r : Reading) (nanos : Nat) (offset : Int) :
    Except Error Time :=
  if !r.valid then .error (contentError kind content)
  else if lastYear < (utc (r.seconds - offset)).utcYear then .error .beyondCalendar
  else .ok ⟨r.seconds - offset, nanos, 0⟩

/-- A `content` is read as a reading of a clock and then the zone of the clock. -/
theorem ofContent_eq (kind : TimeKind) (content : Bytes) :
    ofContent kind content =
      if content.any (0x80 ≤ ·) then .error (.malformed (.timeNotAscii kind))
      else if content.length < minContent kind then .error (contentError kind content)
      else (do
        let (r, nanos, zone) ← takeReading kind content
        let offset ← offsetSeconds kind content zone
        ofReading kind content r nanos offset) := by
  -- two digits of a year stand for a year as well as four do, and the rest is the same
  cases kind
  all_goals
    simp only [ofContent, takeReading, takeYear, bind_assoc, pure_bind]
    rfl

theorem ofReading_eq_ok {r : Reading} {nanos : Nat} {offset : Int} {t : Time} :
    ofReading kind content r nanos offset = .ok t ↔ r.valid = true ∧
      ¬lastYear < (utc (r.seconds - offset)).utcYear ∧ ⟨r.seconds - offset, nanos, 0⟩ = t := by
  simp [ofReading, error_ite_eq_ok]

/-- A time `t` is read off a clock. -/
theorem ofContent_eq_ok {t : Time} :
    ofContent kind content = .ok t ↔
      content.any (0x80 ≤ ·) = false ∧ minContent kind ≤ content.length ∧
        ∃ r nanos zone offset, takeReading kind content = .ok (r, nanos, zone) ∧
          offsetSeconds kind content zone = .ok offset ∧
          ofReading kind content r nanos offset = .ok t := by
  rw [ofContent_eq, error_ite_eq_ok, error_ite_eq_ok, Nat.not_lt, Bool.not_eq_true]
  simp only [bind_eq_ok, Prod.exists, exists_and_left]

/-! ## Reading what was written -/

theorem takeDigits_eq_ok {width n : Nat} :
    takeDigits content width b = .ok (n, rest) ↔ Fits width n ∧ b = octets width n ++ rest := by
  rw [← take?_eq_some, takeDigits]
  split <;> simp_all

theorem takeDigits_octets {width n : Nat} (h : Fits width n) :
    takeDigits content width (octets width n ++ rest) = .ok (n, rest) :=
  takeDigits_eq_ok.mpr ⟨h, rfl⟩

/-- Seconds `n` begin with a digit, so they are not taken for left out. -/
theorem takeSeconds_octets {n : Nat} (h : Fits 2 n) :
    takeSeconds content (octets 2 n ++ rest) = .ok (n, rest) := by
  have htake : takeDigits content 2 (octets 2 n ++ rest) = .ok (n, rest) := takeDigits_octets h
  simp only [octets, List.nil_append, List.cons_append] at htake ⊢
  rw [takeSeconds, if_pos (isDigit_digit _), htake]

/-- Each field of a reading `r` that exists fits its digits. -/
theorem fits_of_valid {r : Reading} (h : r.valid = true) :
    Fits 2 r.date.month ∧ Fits 2 r.date.day ∧ Fits 2 r.hour ∧ Fits 2 r.minute ∧
      Fits 2 r.second := by
  simp only [Reading.valid, Bool.and_eq_true, decide_eq_true_eq] at h
  obtain ⟨⟨⟨hdate, hhour⟩, hminute⟩, hsecond⟩ := h
  obtain ⟨hmonth, -, hday⟩ := Date.bounds_of_valid hdate
  refine ⟨fits_two ?_, fits_two ?_, fits_two ?_, fits_two ?_, fits_two ?_⟩ <;> omega

/-- After the year, a content is read as it is written for `t`. -/
theorem ofContent_of_year {t : Time} {width n : Nat}
    (hlength : minContent kind ≤ width + 11)
    (hyear : takeYear kind (octets width n ++ restContent t.utcReading) =
      .ok (t.utcYear.toNat, restContent t.utcReading))
    (hfirst : 0 ≤ t.utcYear) (hlast : t.utcYear ≤ lastYear) :
    ofContent kind (octets width n ++ restContent t.utcReading) = .ok t.wholeSecond := by
  obtain ⟨hvalid, hseconds⟩ := Reading.ofSeconds_spec t.seconds
  obtain ⟨hmonth, hday, hhour, hminute, hsecond⟩ := fits_of_valid hvalid
  have hreading : Reading.mk ⟨(t.utcYear.toNat : Int), t.utcReading.date.month,
      t.utcReading.date.day⟩ t.utcReading.hour t.utcReading.minute t.utcReading.second =
      t.utcReading := by
    rw [Int.toNat_of_nonneg hfirst]
    rfl
  refine ofContent_eq_ok.mpr ⟨ascii_restContent .., ?_, t.utcReading, 0, [0x5A], 0, ?_, rfl, ?_⟩
  · rw [List.length_append, length_octets, length_restContent]
    exact hlength
  · rw [takeReading, hyear]
    simp only [restContent, List.append_assoc, bind_eq_ok]
    exact ⟨_, rfl, _, takeDigits_octets hmonth, _, takeDigits_octets hday,
      _, takeDigits_octets hhour, _, takeDigits_octets hminute, _, takeSeconds_octets hsecond,
      (0, [0x5A]), rfl, by rw [hreading]; rfl⟩
  · have hwhole : t.utcReading.seconds - 0 = t.seconds := by rw [Int.sub_zero]; exact hseconds
    exact ofReading_eq_ok.mpr ⟨hvalid, by rw [hwhole]; exact Int.not_lt.mpr hlast,
      by rw [hwhole]; rfl⟩

/-- A time `t` that can be written is read back without its fraction of a second. -/
theorem ofContent_generalizedContent {t : Time} (h : t.generalizedContent = .ok b) :
    ofContent .generalized b = .ok t.wholeSecond := by
  obtain ⟨⟨hfirst, hlast⟩, rfl⟩ := generalizedContent_eq_ok.mp h
  have hfour : Fits 4 t.utcYear.toNat := fits_four (by omega)
  exact ofContent_of_year (by decide) (takeDigits_octets hfour) hfirst hlast

/-- Two digits are enough for a year `y` between 1950 and 2049. -/
theorem fullYear_mod {y : Int} (h : 1950 ≤ y ∧ y < 2050) : fullYear (y.toNat % 100) = y.toNat := by
  unfold fullYear
  split <;> omega

theorem ofContent_utcContent {t : Time} (h : t.utcContent = .ok b) :
    ofContent .utc b = .ok t.wholeSecond := by
  obtain ⟨hyear, rfl⟩ := utcContent_eq_ok.mp h
  have htwo : Fits 2 (t.utcYear.toNat % 100) := fits_two (by omega)
  have hlast : t.utcYear ≤ lastYear := by
    show _ ≤ (9999 : Int)
    omega
  refine ofContent_of_year (by decide) ?_ (by omega) hlast
  rw [takeYear, takeDigits_octets htwo]
  exact congrArg (fun y => Except.ok (y, restContent t.utcReading)) (fullYear_mod hyear)

/-! ## Years -/

/-- The times after the start of the year `y` are those of `y` or a later one. -/
theorem le_utcYear_iff {t : Time} {y : Int} :
    y ≤ t.utcYear ↔ (Date.daysBeforeYear y - Date.epoch) * 86400 ≤ t.seconds := by
  have hyear : t.utcYear = Date.yearOf (t.seconds / 86400 + Date.epoch) := rfl
  rw [hyear, Date.le_yearOf_iff]
  omega

end Pkix.Time
