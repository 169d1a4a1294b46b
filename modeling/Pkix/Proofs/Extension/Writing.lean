import Pkix.Proofs.Extension.Rereading
import Pkix.Proofs.Time.Spelling

/-!
# What can be written of extensions that were read

An extension that was read can be written unless it has a time before year 0. A clock ahead of UTC
shows the first hours of that year while it is still the year before in UTC, which has no four
digits.

* `Content.times`, `Content.Readable`: what readers take.
* `Content.Reads.readable`: what was read can be read again when it is written.
* `Content.writtenUnless_value`: which of the times keep a content from being written.
* `TypedExtension.written_unless_before_year_zero`: what becomes of an extension that was read.
-/

namespace Pkix

open Der Content

namespace Content

/-! ## Contents that were read -/

/-- The times in a content: the bounds of `privateKeyUsage` and the date of `invalidityDate`. -/
def times : Content → List Time
  | privateKeyUsage before after => before.toList ++ after.toList
  | invalidityDate date => date.toList
  | _ => []

/-- `c` is no larger than what readers take on, and its times lie in the years of times that are
read. -/
structure Readable (c : Content) : Prop where
  length : ∀ b, c.value = .ok b → b.length ≤ Limits.default.maxInput
  count : ∀ purposes, c = extendedKeyUsage (some purposes) →
    purposes.length ≤ Limits.default.maxElements
  years : ∀ t ∈ c.times, -1 ≤ t.utcYear ∧ t.utcYear ≤ Time.lastYear

theorem optionally_cases {α : Type} {octets : Bytes} {read : Value → Except Error α} {o : Option α}
    (h : optionally octets read = .ok o) :
    (o = none ∧ octets = []) ∨
      ∃ v a, octets.length ≤ Limits.default.maxInput ∧ v.octets = octets ∧ read v = .ok a ∧
        o = some a := by
  unfold optionally at h
  split at h
  · cases h
    exact .inl ⟨rfl, ‹_›⟩
  · simp only [bind_eq_ok, pure_eq_ok] at h
    obtain ⟨v, hv, a, ha, rfl⟩ := h
    obtain ⟨hlen, hoctets⟩ := decode_eq_ok.mp hv
    exact .inr ⟨v, a, hlen, hoctets, ha, rfl⟩

/-- The bounds among the elements `vs` are times that are read, so what holds of these (`P`) holds
of them. -/
theorem years_of_readBounds {before after before' after' : Option Time} {vs : List Value}
    {P : Time → Prop} (hread : ∀ content t, Time.ofContent .generalized content = .ok t → P t)
    (h : readBounds before after vs = .ok (before', after'))
    (hP : ∀ t ∈ before.toList ++ after.toList, P t) :
    ∀ t ∈ before'.toList ++ after'.toList, P t := by
  induction vs generalizing before after with
  | nil =>
    cases h
    exact hP
  | cons v vs ih =>
    simp only [List.mem_append] at hP
    rw [readBounds] at h
    split at h
    · simp only [error_ite_eq_ok, bind_eq_ok] at h
      obtain ⟨-, t, ht, h⟩ := h
      refine ih h fun s hs => ?_
      obtain hs | hs := List.mem_append.mp hs
      · cases Option.mem_toList.mp hs
        exact hread _ _ (Value.generalizedTime_eq_ok.mp ht).2
      · exact hP s (.inr hs)
    · split at h
      · simp only [error_ite_eq_ok, bind_eq_ok] at h
        obtain ⟨-, t, ht, h⟩ := h
        refine ih h fun s hs => ?_
        obtain hs | hs := List.mem_append.mp hs
        · exact hP s (.inl hs)
        · cases Option.mem_toList.mp hs
          exact hread _ _ (Value.generalizedTime_eq_ok.mp ht).2
      · cases h

/-- A `bound` is written in few octets. -/
theorem length_boundOctets_le {tag : UInt8} {bound : Option Time} {b : Bytes}
    (h : boundOctets tag bound = .ok b) : b.length ≤ 17 := by
  cases bound with
  | none =>
    cases h
    exact Nat.zero_le _
  | some t =>
    simp only [boundOctets, Write.generalizedTime, bind_eq_ok, pure_eq_ok] at h
    obtain ⟨_, ⟨content, hcontent, rfl⟩, rfl⟩ := h
    have hlength := Time.length_generalizedContent hcontent
    show (Write.element tag content).length ≤ 17
    rw [Write.length_element_of_lt (by omega)]
    omega

theorem Readable.of_value {c : Content} {b : Bytes} (h : c.value = .ok b)
    (hlen : b.length ≤ Limits.default.maxInput)
    (hcount : ∀ purposes, c = extendedKeyUsage (some purposes) →
      purposes.length ≤ Limits.default.maxElements)
    (hyears : ∀ t ∈ c.times, -1 ≤ t.utcYear ∧ t.utcYear ≤ Time.lastYear) : c.Readable where
  length b' hb' := by
    cases h.symm.trans hb'
    exact hlen
  count := hcount
  years := hyears

theorem readable_of_readPeriod {v : Value} {before after : Option Time}
    (h : readPeriod v = .ok (before, after)) : (privateKeyUsage before after).Readable := by
  simp only [readPeriod, ite_error_eq_ok, bind_eq_ok] at h
  obtain ⟨-, vs, -, hread⟩ := h
  have hyears := years_of_readBounds (fun _ _ => Time.utcYear_of_ofContent) hread
    fun _ ht => (List.not_mem_nil ht).elim
  refine ⟨fun b hb => ?_, fun _ heq => Content.noConfusion heq, hyears⟩
  obtain ⟨-, -, rfl⟩ | ⟨first, second, hfirst, hsecond, rfl⟩ := value_privateKeyUsage hb
  · exact Nat.zero_le _
  · have h₁ := length_boundOctets_le hfirst
    have h₂ := length_boundOctets_le hsecond
    have hlength : (first ++ second).length = first.length + second.length := List.length_append
    have hsmall : 36 ≤ Limits.default.maxInput := by decide
    rw [Write.length_element_of_lt (by omega)]
    omega

theorem readable_of_generalizedTime {v : Value} {date : Time} (h : v.generalizedTime = .ok date) :
    (invalidityDate (some date)).Readable := by
  refine ⟨fun b hb => ?_, nofun, fun t ht => ?_⟩
  · simp only [value, Write.generalizedTime, bind_eq_ok, pure_eq_ok] at hb
    obtain ⟨content, hcontent, rfl⟩ := hb
    have hlength := Time.length_generalizedContent hcontent
    rw [Write.length_element_of_lt (by omega), hlength]
    decide
  · cases List.mem_singleton.mp ht
    exact Time.utcYear_of_ofContent (Value.generalizedTime_eq_ok.mp h).2

/-- A content `c` that was read can be read again when it is written. -/
theorem Reads.readable {id : Oid} {octets : Bytes} {c : Content} (h : Reads id octets c)
    (hkind : c.setName? ≠ none) : c.Readable := by
  cases h with
  | keyUsage s h hlen =>
    exact .of_value rfl (Nat.le_trans (Write.length_namedBits_le s) (Nat.le_trans h hlen)) nofun
      nofun
  | subjectKeyIdentifier h =>
    obtain ⟨rfl, rfl⟩ | ⟨v, keyId, hlen, rfl, hread, rfl⟩ := optionally_cases h
    · exact .of_value rfl (Nat.zero_le _) nofun nofun
    · rw [Value.octetString_eq_ok.mp hread, Value.octets_ofOctet (by decide)] at hlen
      exact .of_value rfl hlen nofun nofun
  | extendedKeyUsage h =>
    obtain ⟨rfl, rfl⟩ | ⟨v, purposes, hlen, rfl, hread, rfl⟩ := optionally_cases h
    · exact .of_value rfl (Nat.zero_le _) nofun nofun
    · obtain ⟨rfl, -, hcount⟩ := readPurposes_eq_ok.mp hread
      rw [Value.octets_ofOctet (by decide)] at hlen
      cases purposes with
      | nil => exact .of_value rfl (Nat.zero_le _) (fun _ heq => by cases heq; exact hcount) nofun
      | cons p purposes =>
        exact .of_value rfl hlen (fun _ heq => by cases heq; exact hcount) nofun
  | privateKeyUsage h =>
    obtain ⟨rfl, rfl⟩ | ⟨v, ⟨before, after⟩, hlen, rfl, hread, rfl⟩ := optionally_cases h
    · exact .of_value rfl (Nat.zero_le _) nofun nofun
    · exact readable_of_readPeriod hread
  | reasonCode h =>
    obtain ⟨rfl, rfl⟩ | ⟨v, code, hlen, rfl, hread, rfl⟩ := optionally_cases h
    · exact .of_value rfl (Nat.zero_le _) nofun nofun
    · rw [Value.enumerated_eq_ok.mp hread, Value.octets_ofOctet (by decide)] at hlen
      refine .of_value rfl ?_ nofun nofun
      split
      · exact Nat.zero_le _
      · exact hlen
  | invalidityDate h =>
    obtain ⟨rfl, rfl⟩ | ⟨v, date, hlen, rfl, hread, rfl⟩ := optionally_cases h
    · exact .of_value rfl (Nat.zero_le _) nofun nofun
    · exact readable_of_generalizedTime hread
  | deltaCrlIndicator h =>
    obtain ⟨rfl, rfl⟩ | ⟨v, base, hlen, rfl, hread, rfl⟩ := optionally_cases h
    · exact .of_value rfl (Nat.zero_le _) nofun nofun
    · rw [Value.integer_eq_ok.mp hread, Value.octets_ofOctet (by decide)] at hlen
      exact .of_value rfl hlen nofun nofun
  | ocspNoCheck => exact .of_value rfl (Nat.zero_le _) nofun nofun
  | unrecognized h => exact absurd rfl hkind

/-! ## Writing them -/

/-- What becomes of writing `times` where only the year before year 0 is in the way. -/
def WrittenUnless (times : List Time) (r : Except Error Bytes) : Prop :=
  ((∀ t ∈ times, t.utcYear ≠ -1) ∧ ∃ b, r = .ok b) ∨
    ((∃ t ∈ times, t.utcYear = -1) ∧ r = .error (.encoding (.year (-1) .generalized)))

theorem WrittenUnless.ok (b : Bytes) : WrittenUnless [] (.ok b) := .inl ⟨nofun, b, rfl⟩

theorem WrittenUnless.map {ts : List Time} {r : Except Error Bytes} {f : Bytes → Bytes}
    (h : WrittenUnless ts r) : WrittenUnless ts (do return f (← r)) := by
  obtain ⟨hts, b, rfl⟩ | ⟨hts, rfl⟩ := h
  · exact .inl ⟨hts, f b, rfl⟩
  · exact .inr ⟨hts, rfl⟩

/-- Writing `r` and then `r'` is given up at the first time that is in the way. -/
theorem WrittenUnless.bind {ts us : List Time} {r r' : Except Error Bytes}
    {f : Bytes → Bytes → Bytes} (h : WrittenUnless ts r) (h' : WrittenUnless us r') :
    WrittenUnless (ts ++ us) (do return f (← r) (← r')) := by
  obtain ⟨hts, b, rfl⟩ | ⟨⟨t, ht, hyear⟩, rfl⟩ := h
  · obtain ⟨hus, b', rfl⟩ | ⟨⟨u, hu, hyear⟩, rfl⟩ := h'
    · refine .inl ⟨fun t ht => ?_, f b b', rfl⟩
      obtain ht | ht := List.mem_append.mp ht
      · exact hts t ht
      · exact hus t ht
    · exact .inr ⟨⟨u, List.mem_append_right ts hu, hyear⟩, rfl⟩
  · exact .inr ⟨⟨t, List.mem_append_left us ht, hyear⟩, rfl⟩

/-- A time `t` in the years that are read is written but for the first of them, -1. -/
theorem writtenUnless_generalizedTime {t : Time}
    (h : -1 ≤ t.utcYear ∧ t.utcYear ≤ Time.lastYear) :
    WrittenUnless [t] (Write.generalizedTime t) := by
  have hlast : t.utcYear ≤ 9999 := h.2
  by_cases hyear : t.utcYear = -1
  · have hcontent : t.generalizedContent = .error (.encoding (.year (-1) .generalized)) := by
      rw [Time.generalizedContent_eq, if_neg (by omega),
        Time.refusal_of_inCalendar ⟨Int.le_trans (by decide) h.1, h.2⟩, hyear]
    rw [Write.generalizedTime, hcontent]
    exact .inr ⟨⟨t, List.mem_singleton_self t, hyear⟩, rfl⟩
  · have hcontent := Time.generalizedContent_eq_ok.mpr
      ⟨(show 0 ≤ t.utcYear ∧ t.utcYear ≤ 9999 by omega), rfl⟩
    rw [Write.generalizedTime, hcontent]
    refine .inl ⟨fun s hs => ?_, _, rfl⟩
    cases List.mem_singleton.mp hs
    exact hyear

theorem writtenUnless_boundOctets (tag : UInt8) {bound : Option Time}
    (h : ∀ t ∈ bound.toList, -1 ≤ t.utcYear ∧ t.utcYear ≤ Time.lastYear) :
    WrittenUnless bound.toList (boundOctets tag bound) := by
  cases bound with
  | none => exact .ok []
  | some t => exact (writtenUnless_generalizedTime (h t (List.mem_singleton_self t))).map

/-- **Writing.** A content `c` with times in the years that are read is written, unless one of them
lies in the year before year 0. -/
theorem writtenUnless_value {c : Content}
    (h : ∀ t ∈ c.times, -1 ≤ t.utcYear ∧ t.utcYear ≤ Time.lastYear) :
    WrittenUnless c.times c.value := by
  cases c with
  | subjectKeyIdentifier keyId => cases keyId <;> exact .ok _
  | extendedKeyUsage purposes =>
    match purposes with
    | none => exact .ok _
    | some [] => exact .ok _
    | some (_ :: _) => exact .ok _
  | privateKeyUsage before after =>
    have hbefore := writtenUnless_boundOctets beforeTag fun t ht =>
      h t (List.mem_append_left _ ht)
    have hafter := writtenUnless_boundOctets afterTag fun t ht =>
      h t (List.mem_append_right _ ht)
    by_cases hopen : before = none ∧ after = none
    · obtain ⟨rfl, rfl⟩ := hopen
      exact .ok _
    · rw [value_of_bound hopen]
      exact hbefore.bind hafter
  | invalidityDate date =>
    cases date with
    | none => exact .ok _
    | some date => exact writtenUnless_generalizedTime (h date (List.mem_singleton_self date))
  | deltaCrlIndicator base => cases base <;> exact .ok _
  | _ => exact .ok _

end Content

/-! ## Extensions -/

namespace TypedExtension

variable {e : TypedExtension} {x : Extension}

theorem extension_of_error {err : Error} (h : e.content.value = .error err) :
    e.extension = .error err := by
  rw [extension, h]
  rfl

/-- **An extension that was read can be written, unless a time in it lies in the year before year
0.** Where `x` was read as `e`, it is then written as `y` under the same identifier and as critical,
and read as an extension `e'` of the same kind that says the same (`Agrees`). An extension with such
a time is read and not written. -/
theorem written_unless_before_year_zero (h : ofExtension x = .ok e) :
    ((∀ t ∈ e.content.times, t.utcYear ≠ -1) ∧
      ∃ y e', e.extension = .ok y ∧ y.id = x.id ∧ y.critical = x.critical ∧
        ofExtension y = .ok e' ∧ e'.critical = e.critical ∧ e.content.Agrees e'.content) ∨
      ((∃ t ∈ e.content.times, t.utcYear = -1) ∧
        e.extension = .error (.encoding (.year (-1) .generalized))) := by
  obtain ⟨hread, hcritical⟩ := ofExtension_eq_ok.mp h
  have hreads := reads_of_decode hread
  obtain ⟨hid, hregular⟩ := hreads.regular
  by_cases hkind : e.content.setName? = none
  · have hcontent := hreads.eq_unrecognized hkind
    have hwritten : e.extension = .ok x :=
      extension_eq_ok.mpr ⟨hid, hcritical, by rw [hcontent]; rfl⟩
    refine .inl ⟨?_, x, e, hwritten, rfl, rfl, h, rfl, ?_⟩
    · rw [hcontent]
      exact nofun
    · rw [hcontent]
      exact .unrecognized _ _
  · have hreadable := hreads.readable hkind
    obtain ⟨hyears, b, hvalue⟩ | ⟨hyear, hvalue⟩ := writtenUnless_value hreadable.years
    · have hwritten : e.extension = .ok ⟨x.id, x.critical, b⟩ :=
        extension_eq_ok.mpr ⟨hid, hcritical, hvalue⟩
      obtain ⟨e', hreread, hcritical', hagrees, -⟩ := ofExtension_extension hregular hwritten
        (hreadable.length b hvalue) hreadable.count
      exact .inl ⟨hyears, _, e', hwritten, rfl, rfl, hreread, hcritical', hagrees⟩
    · exact .inr ⟨hyear, extension_of_error hvalue⟩

/-- `written_unless_before_year_zero` at a date with a fraction of a second on a clock that is ahead
of UTC. -/
theorem exists_written_fraction :
    ∃ y e', (mk false (.invalidityDate (some ⟨1710493200, 250000000, 0⟩))).extension = .ok y ∧
      ofExtension y = .ok e' ∧
      (Content.invalidityDate (some ⟨1710493200, 250000000, 0⟩)).Agrees e'.content := by
  -- the content of the element is 20240315103000.25+0130
  have hcontent : Time.ofContent .generalized
      [0x32, 0x30, 0x32, 0x34, 0x30, 0x33, 0x31, 0x35, 0x31, 0x30, 0x33, 0x30, 0x30, 0x30, 0x2E,
        0x32, 0x35, 0x2B, 0x30, 0x31, 0x33, 0x30] =
        .ok ⟨1710493200, 250000000, 0⟩ := toOption_eq_some.mp (by decide +kernel)
  have hread : ofExtension ⟨Oid.invalidityDate, false, Write.element Tag.generalizedTime _⟩ =
      .ok ⟨false, .invalidityDate (some ⟨1710493200, 250000000, 0⟩)⟩ :=
    ofExtension_eq_ok.mpr ⟨decode_optionally (by decide) (by decide)
      (Value.generalizedTime_eq_ok.mpr ⟨rfl, hcontent⟩), rfl⟩
  obtain ⟨-, y, e', hwritten, -, -, hreread, -, hagrees⟩ | ⟨⟨t, ht, hyear⟩, -⟩ :=
    written_unless_before_year_zero hread
  · exact ⟨y, e', hwritten, hreread, hagrees⟩
  · cases List.mem_singleton.mp ht
    exact absurd hyear (by decide)

/-- An `invalidityDate` a quarter of an hour past midnight on a clock an hour ahead of UTC, at the
start of year 0. -/
def startOfYearZero : Extension where
  id := Oid.invalidityDate
  critical := false
  -- 000001010015+0100
  value := [0x18, 0x11, 0x30, 0x30, 0x30, 0x30, 0x30, 0x31, 0x30, 0x31, 0x30, 0x30, 0x31, 0x35,
    0x2B, 0x30, 0x31, 0x30, 0x30]

/-- `startOfYearZero` is read as an extension that cannot be written. -/
theorem startOfYearZero_not_written :
    ∃ e, ofExtension startOfYearZero = .ok e ∧
      e.extension = .error (.encoding (.year (-1) .generalized)) :=
  ⟨⟨false, .invalidityDate (some ⟨-62167221900, 0, 0⟩)⟩, rfl, rfl⟩

end TypedExtension

end Pkix
