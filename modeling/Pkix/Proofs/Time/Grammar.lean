import Pkix.Proofs.Time.Roundtrip
import Pkix.Proofs.Time.Spelling

/-!
# Times of the regular form, and no others, are read

The two types have a form each: a year of two or four digits, then month, day, hour and minute, then
seconds or none, then the zone. Only a GeneralizedTime has a fraction, and only after seconds.

* `Time.Regular`: the form, with the marks that may begin a fraction.
* `Time.StrayFraction`: a fraction where the form has none. Nothing is said of how such a content is
  read.
* `Time.fractionNanos_eq`: a fraction is cut off after whole nanoseconds.
* `Time.regular_of_spells`: what is read without a stray fraction is of the form.
* `Time.regular_times_read`: acceptance, result and refusal.
-/

namespace Pkix.Time

open Decimal Der

variable {ms : List UInt8} {kind : TimeKind} {content : Bytes} {r : Reading} {nanos : Nat}
  {offset : Int}

/-! ## The form -/

/-- The marks that begin a fraction: a point, `0x2E`, and a comma, `0x2C`. -/
def marks : List UInt8 := [0x2E, 0x2C]

/-- The seconds, or none. Those of a GeneralizedTime may go on with a mark from `ms` and the digits
of a `fraction`, which count as far as they make whole nanoseconds. -/
inductive SecondsForm (ms : List UInt8) : TimeKind → Bytes → Nat → Nat → Prop
  | absent {kind : TimeKind} : SecondsForm ms kind [] 0 0
  | whole {kind : TimeKind} {second : Nat} (fits : Fits 2 second) :
      SecondsForm ms kind (octets 2 second) second 0
  | fraction {second : Nat} {mark : UInt8} {ds : Bytes} (fits : Fits 2 second)
      (mark_mem : mark ∈ ms) (ne_nil : ds ≠ []) (isDigit : ds.all isDigit = true) :
      SecondsForm ms .generalized (octets 2 second ++ mark :: ds) second
        (value ds * 1000000000 / Nat.pow 10 ds.length)

/-- The content has the form `YYMMDDhhmm[ss]` of a UTCTime or `YYYYMMDDhhmm[ss[.f]]` of a
GeneralizedTime, with a mark from `ms` before a fraction, and then a zone. -/
inductive Regular (ms : List UInt8) (kind : TimeKind) : Bytes → Reading → Nat → Int → Prop
  | mk {y s z : Bytes} {year month day hour minute second nanos : Nat} {offset : Int}
      (year_spelled : YearSpelled kind y year)
      (month_fits : Fits 2 month) (day_fits : Fits 2 day)
      (hour_fits : Fits 2 hour) (minute_fits : Fits 2 minute)
      (seconds_form : SecondsForm ms kind s second nanos) (zone_spelled : ZoneSpelled z offset) :
      Regular ms kind
        (y ++ (octets 2 month ++ (octets 2 day ++ (octets 2 hour ++
          (octets 2 minute ++ (s ++ z))))))
        ⟨⟨year, month, day⟩, hour, minute, second⟩ nanos offset

/-- A content of the form into which a fraction was put where the form has none: right after the
minutes or, in a UTCTime, after the seconds. It follows `front`. -/
inductive StrayFraction (kind : TimeKind) : Bytes → Prop
  | mk {front ds back : Bytes} {mark : UInt8} {r : Reading} {offset : Int}
      (place : front.length + 1 = minContent kind ∨
        kind = .utc ∧ front.length = minContent kind + 1)
      (mark_mem : mark ∈ marks) (ne_nil : ds ≠ []) (isDigit : ds.all isDigit = true)
      (regular : Regular [] kind (front ++ back) r 0 offset) (valid : r.valid = true) :
      StrayFraction kind (front ++ (mark :: ds ++ back))

/-- A mark is at the place of such a fraction in `content`. -/
theorem StrayFraction.exists_mark (h : StrayFraction kind content) :
    ∃ i, (i + 1 = minContent kind ∨ kind = .utc ∧ i = minContent kind + 1) ∧
      ∃ x ∈ content[i]?, x ∈ marks := by
  obtain ⟨place, mark_mem, -, -, -, -⟩ := h
  refine ⟨_, place, _, ?_, mark_mem⟩
  rw [List.getElem?_append_right (Nat.le_refl _), Nat.sub_self]
  rfl

theorem SecondsForm.isDigit_or_mem {s : Bytes} {second : Nat}
    (h : SecondsForm ms kind s second nanos) : ∀ x ∈ s, isDigit x = true ∨ x ∈ ms := by
  intro x hx
  cases h with
  | absent => cases hx
  | whole fits => exact .inl (isDigit_of_mem_octets hx)
  | fraction fits mark_mem ne_nil all =>
    rcases List.mem_append.mp hx with hx | hx
    · exact .inl (isDigit_of_mem_octets hx)
    · rcases List.mem_cons.mp hx with rfl | hx
      · exact .inr mark_mem
      · exact .inl (List.all_eq_true.mp all x hx)

theorem ZoneSpelled.isDigit_or_mem {z : Bytes} (h : ZoneSpelled z offset) :
    ∀ x ∈ z, isDigit x = true ∨ x ∈ [0x5A, 0x2B, 0x2D] := by
  intro x hx
  cases h with
  | utc =>
    obtain rfl := List.mem_singleton.mp hx
    exact .inr (by decide)
  | ahead hours minutes | behind hours minutes =>
    rcases List.mem_cons.mp hx with rfl | hx
    · exact .inr (by decide)
    · rcases List.mem_append.mp hx with hx | hx <;> exact .inl (isDigit_of_mem_octets hx)

/-- A `content` of the form has digits, marks and the letter or sign of a zone. -/
theorem Regular.isDigit_or_mem (h : Regular ms kind content r nanos offset) :
    ∀ x ∈ content, isDigit x = true ∨ x ∈ ms ∨ x ∈ [0x5A, 0x2B, 0x2D] := by
  obtain ⟨hyear, -, -, -, -, hseconds, hzone⟩ := h
  intro x hx
  simp only [List.mem_append] at hx
  rcases hx with hx | hx | hx | hx | hx | hx | hx
  · cases hyear <;> exact .inl (isDigit_of_mem_octets hx)
  · exact .inl (isDigit_of_mem_octets hx)
  · exact .inl (isDigit_of_mem_octets hx)
  · exact .inl (isDigit_of_mem_octets hx)
  · exact .inl (isDigit_of_mem_octets hx)
  · exact (hseconds.isDigit_or_mem x hx).imp_right .inl
  · exact (hzone.isDigit_or_mem x hx).imp_right .inr

/-! ## Digits of a fraction -/

/-- A fraction makes the nanoseconds that its digits `ds` make as a part of a second, rounded
down. -/
theorem fractionNanos_eq {ds : Bytes} (h : ds.all isDigit = true) :
    fractionNanos ds = value ds * 1000000000 / Nat.pow 10 ds.length := by
  generalize hfull : ds ++ List.replicate 9 0x30 = full
  have hnine : Nat.pow 10 9 = 1000000000 := by decide
  have hvalue : value full = value ds * 1000000000 := by
    rw [← hfull, value_append_digits, value_replicate_zero, List.length_replicate, hnine,
      Nat.add_zero]
  have hsplit := value_append_digits (full.take 9) (full.drop 9)
  rw [List.take_append_drop, hvalue] at hsplit
  have hdigits : (full.drop 9).all isDigit = true := by
    rw [List.all_eq_true]
    intro x hx
    rw [← hfull] at hx
    rcases List.mem_append.mp (List.mem_of_mem_drop hx) with hx | hx
    · exact List.all_eq_true.mp h x hx
    · rw [List.eq_of_mem_replicate hx]
      decide
  have hlength : (full.drop 9).length = ds.length := by simp [← hfull]
  have hcut := (octets_value hdigits).1.lt_pow
  rw [hlength] at hsplit hcut
  rw [fractionNanos, hfull, hsplit, Nat.add_comm,
    Nat.add_mul_div_right _ _ (Nat.zero_lt_of_lt hcut), Nat.div_eq_of_lt hcut, Nat.zero_add]

/-! ## The form is read -/

theorem SecondsForm.exists_spelled {s : Bytes} {second : Nat} (hms : ms ⊆ marks)
    (h : SecondsForm ms kind s second nanos) :
    ∃ w f, SecondsSpelled w second ∧ FractionSpelled f nanos ∧ s = w ++ f := by
  cases h with
  | absent => exact ⟨_, _, .absent, .absent, rfl⟩
  | whole fits => exact ⟨_, _, .digits fits, .absent, (List.append_nil _).symm⟩
  | fraction fits mark_mem ne_nil all =>
    have hmark := hms mark_mem
    simp only [marks, List.mem_cons, List.not_mem_nil, or_false] at hmark
    exact ⟨_, _, .digits fits, fractionNanos_eq all ▸ .digits hmark ne_nil all, rfl⟩

/-- What has the form (`Regular`) is spelled by the grammar that the reader takes in (`Spells`). -/
theorem Regular.spells (hms : ms ⊆ marks) (h : Regular ms kind content r nanos offset) :
    Spells kind content r nanos offset := by
  obtain ⟨hyear, hmonth, hday, hhour, hminute, hseconds, hzone⟩ := h
  obtain ⟨w, f, hsecond, hfraction, rfl⟩ := hseconds.exists_spelled hms
  rw [List.append_assoc]
  exact .mk hyear hmonth hday hhour hminute hsecond hfraction hzone

/-- A `content` spells one reading at most. -/
theorem Spells.unique {r' : Reading} {nanos' : Nat} {offset' : Int}
    (h : Spells kind content r nanos offset) (h' : Spells kind content r' nanos' offset') :
    r' = r ∧ nanos' = nanos ∧ offset' = offset := by
  obtain ⟨zone, hreading, hzone⟩ := spells_iff.mp h
  obtain ⟨zone', hreading', hzone'⟩ := spells_iff.mp h'
  rw [hreading] at hreading'
  cases hreading'
  rw [hzone] at hzone'
  cases hzone'
  exact ⟨rfl, rfl, rfl⟩

/-! ## What is read has the form -/

/-- A fraction after no seconds `s`, or after those of a UTCTime, is where the form has none. -/
theorem StrayFraction.of_parts {y s ds z : Bytes} {mark : UInt8}
    {year month day hour minute second : Nat} (hyear : YearSpelled kind y year)
    (hmonth : Fits 2 month) (hday : Fits 2 day) (hhour : Fits 2 hour) (hminute : Fits 2 minute)
    (hseconds : SecondsForm [] kind s second 0) (hplace : s = [] ∨ kind = .utc ∧ s.length = 2)
    (hmark : mark ∈ marks) (hne : ds ≠ []) (hdigits : ds.all isDigit = true)
    (hzone : ZoneSpelled z offset)
    (hvalid : Reading.valid ⟨⟨year, month, day⟩, hour, minute, second⟩ = true) :
    StrayFraction kind (y ++ (octets 2 month ++ (octets 2 day ++ (octets 2 hour ++
      (octets 2 minute ++ (s ++ (mark :: ds ++ z))))))) := by
  generalize hfront : y ++ (octets 2 month ++ (octets 2 day ++ (octets 2 hour ++
    (octets 2 minute ++ s)))) = front
  have hlength : front.length + 1 = minContent kind + s.length := by
    simp only [← hfront, List.length_append, length_octets]
    have := hyear.length_add
    omega
  have hregular : Regular [] kind (front ++ z) ⟨⟨year, month, day⟩, hour, minute, second⟩ 0
      offset := by
    simp only [← hfront, List.append_assoc]
    exact .mk hyear hmonth hday hhour hminute hseconds hzone
  have hcontent : front ++ (mark :: ds ++ z) = y ++ (octets 2 month ++ (octets 2 day ++
      (octets 2 hour ++ (octets 2 minute ++ (s ++ (mark :: ds ++ z)))))) := by
    simp only [← hfront, List.append_assoc]
  rw [← hcontent]
  refine .mk (hplace.imp ?_ fun ⟨hkind, hs⟩ => ⟨hkind, by omega⟩) hmark hne hdigits hregular hvalid
  rintro rfl
  exact hlength

/-- What the reader takes in (`Spells`) has the form, unless a fraction is where the form has
none. -/
theorem regular_of_spells (h : Spells kind content r nanos offset) (hvalid : r.valid = true)
    (hstray : ¬StrayFraction kind content) : Regular marks kind content r nanos offset := by
  obtain ⟨hyear, hmonth, hday, hhour, hminute, hsecond, hfraction, hzone⟩ := h
  cases hfraction with
  | absent =>
    cases hsecond with
    | absent => exact .mk hyear hmonth hday hhour hminute .absent hzone
    | digits fits => exact .mk hyear hmonth hday hhour hminute (.whole fits) hzone
  | @digits mark ds mark_eq ne_nil all =>
    have hmark : mark ∈ marks := by simpa [marks] using mark_eq
    cases hsecond with
    | absent =>
      exact absurd (.of_parts hyear hmonth hday hhour hminute .absent (.inl rfl) hmark ne_nil all
        hzone hvalid) hstray
    | digits fits =>
      cases kind with
      | utc =>
        exact absurd (.of_parts hyear hmonth hday hhour hminute (.whole fits) (.inr ⟨rfl, rfl⟩)
          hmark ne_nil all hzone hvalid) hstray
      | generalized =>
        rw [fractionNanos_eq all, ← List.append_assoc (octets 2 _) (mark :: ds)]
        exact .mk hyear hmonth hday hhour hminute (.fraction fits hmark ne_nil all) hzone

/-! ## Reading -/

/-- **Times of the regular form.** Take a `content` without a stray fraction, which is not past the
calendar in UTC (`PastCalendar`). It is read as a time of its type exactly if it has the form
(`Regular`), with a point or a comma before a fraction, and its reading `r` exists. It has one
reading then, and what is read is that reading less the `offset` of the clock, with the `nanos` of
the fraction. Otherwise the encoding is at fault. -/
theorem regular_times_read (hstray : ¬StrayFraction kind content)
    (hpast : ¬(kind = .generalized ∧ PastCalendar content)) :
    ((∃ t, (EncodedTime.element kind content).timeAs kind = .ok t) ↔
      ∃ r nanos offset, Regular marks kind content r nanos offset ∧ r.valid = true) ∧
    (∀ r nanos offset, Regular marks kind content r nanos offset → r.valid = true →
      (EncodedTime.element kind content).timeAs kind = .ok ⟨r.seconds - offset, nanos, 0⟩ ∧
      ∀ r' nanos' offset', Regular marks kind content r' nanos' offset' →
        r' = r ∧ nanos' = nanos ∧ offset' = offset) ∧
    ((¬∃ r nanos offset, Regular marks kind content r nanos offset ∧ r.valid = true) →
      ∃ cause, (EncodedTime.element kind content).timeAs kind = .error (.malformed cause)) := by
  rw [EncodedTime.timeAs_element]
  have hread (r nanos offset) (h : Regular marks kind content r nanos offset)
      (hvalid : r.valid = true) :
      ofContent kind content = .ok ⟨r.seconds - offset, nanos, 0⟩ := by
    have hspells := h.spells (List.Subset.refl _)
    have hbeyond : ofContent kind content ≠ .error .beyondCalendar := fun h =>
      hpast (ofContent_eq_beyondCalendar.mp h)
    rw [ofContent_of_spells hspells] at hbeyond ⊢
    refine ofReading_eq_ok.mpr ⟨hvalid, fun hlast => hbeyond ?_, rfl⟩
    exact ofReading_eq_error.mpr (.inr ⟨hvalid, lastYear_lt_utcYear_iff.mp hlast, rfl⟩)
  have hregular (t) (h : ofContent kind content = .ok t) :
      ∃ r nanos offset, Regular marks kind content r nanos offset ∧ r.valid = true := by
    obtain ⟨r, nanos, offset, hspells, hvalid, -, -⟩ := exists_spells_of_ofContent h
    exact ⟨r, nanos, offset, regular_of_spells hspells hvalid hstray, hvalid⟩
  refine ⟨⟨fun ⟨t, ht⟩ => hregular t ht, ?_⟩, fun r nanos offset h hvalid => ⟨hread _ _ _ h hvalid,
    fun r' nanos' offset' h' => ?_⟩, fun hnone => ?_⟩
  · rintro ⟨r, nanos, offset, h, hvalid⟩
    exact ⟨_, hread r nanos offset h hvalid⟩
  · exact (h.spells (List.Subset.refl _)).unique (h'.spells (List.Subset.refl _))
  · have hsettles := settles_ofContent hpast
    cases hresult : ofContent kind content with
    | ok t => exact absurd (hregular t hresult) hnone
    | error e =>
      rw [hresult] at hsettles
      cases e with
      | malformed cause => exact ⟨cause, rfl⟩
      | _ => exact absurd hsettles id

/-- `regular_times_read` at a quarter of a second after half past ten on a clock an hour and a half
ahead of UTC. -/
theorem exists_regular_time_read :
    ∃ content, content = Bytes.ofString "20240315103000,25+0130" ∧
      ¬StrayFraction .generalized content ∧ ¬PastCalendar content ∧
      Regular marks .generalized content ⟨⟨2024, 3, 15⟩, 10, 30, 0⟩ 250000000 5400 ∧
      (EncodedTime.element .generalized content).timeAs .generalized =
        .ok ⟨1710493200, 250000000, 0⟩ := by
  have hstray : ¬StrayFraction .generalized (Bytes.ofString "20240315103000,25+0130") := fun h => by
    obtain ⟨i, hi | ⟨hkind, -⟩, hmark⟩ := h.exists_mark
    · obtain rfl : i = 12 := Nat.succ.inj hi
      revert hmark
      decide
    · cases hkind
  have hpast : ¬PastCalendar (Bytes.ofString "20240315103000,25+0130") := fun h => by
    have := ofContent_eq_beyondCalendar.mpr ⟨rfl, h⟩
    revert this
    decide
  have hregular : Regular marks .generalized (Bytes.ofString "20240315103000,25+0130")
      ⟨⟨2024, 3, 15⟩, 10, 30, 0⟩ 250000000 5400 :=
    .mk (.generalized (by decide : Fits 4 2024)) (by decide : Fits 2 3) (by decide : Fits 2 15)
      (by decide : Fits 2 10) (by decide : Fits 2 30)
      (.fraction (by decide : Fits 2 0) (by decide : 0x2C ∈ marks)
        (by decide : Bytes.ofString "25" ≠ [])
        (by decide : (Bytes.ofString "25").all isDigit = true))
      (.ahead (by decide : 1 ≤ 25) (by decide : 30 ≤ 59))
  obtain ⟨-, hread, -⟩ := regular_times_read hstray fun h => hpast h.2
  exact ⟨_, rfl, hstray, hpast, hregular, (hread _ _ _ hregular (by decide)).1⟩

/-- A comma before a fraction is read by `generalizedTime` as a point is. -/
theorem generalizedTime_comma :
    (Value.ofOctet Tag.generalizedTime (Bytes.ofString "20240101120000,5Z")).generalizedTime =
        .ok ⟨1704110400, 500000000, 0⟩ ∧
      ∀ r nanos offset,
        ¬Regular [0x2E] .generalized (Bytes.ofString "20240101120000,5Z") r nanos offset := by
  refine ⟨by decide, fun r nanos offset h => ?_⟩
  exact absurd (h.isDigit_or_mem 0x2C (by decide)) (by decide)

end Pkix.Time
