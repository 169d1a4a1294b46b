import Pkix.Proofs.Dates
import Pkix.Proofs.Der.Encoder

/-!
# Every time is written and read back, or its year has no spelling

Either type of time is written in UTC, so it is the year in UTC that decides, whatever the clock of
the time shows. What is written is read as the same point in time without the fraction of a second.

* `TimeKind.Spells`: the years that a type can spell.
* `Encoder.Step.ofTime`, `Value.timeAs`: a time is written as either type, and read as it.
* `Encoder.Step.on_ofTime`: one call, in either case; `Encoder.times_read_back`: both types.
-/

namespace Pkix

open Der

/-- The type spells the `year`: in four digits, or in two that stand for 1950 to 2049. -/
def TimeKind.Spells : TimeKind → Int → Prop
  | .utc, year => 1950 ≤ year ∧ year ≤ 2049
  | .generalized, year => 0 ≤ year ∧ year ≤ 9999

namespace Time

variable {t : Time} {kind : TimeKind}

theorem exists_contentAs (h : kind.Spells t.utcYear) : ∃ b, t.contentAs kind = .ok b := by
  cases kind with
  | utc => exact ⟨_, utcContent_eq_ok.mpr ⟨⟨h.1, Int.lt_add_one_of_le h.2⟩, rfl⟩⟩
  | generalized => exact ⟨_, generalizedContent_eq_ok.mpr ⟨h, rfl⟩⟩

theorem contentAs_of_not_spells (h : ¬kind.Spells t.utcYear) :
    t.contentAs kind = .error (t.refusal kind) := by
  cases kind with
  | utc =>
    rw [contentAs, utcContent_eq]
    exact if_neg fun hyear => h ⟨hyear.1, Int.le_of_lt_add_one hyear.2⟩
  | generalized =>
    rw [contentAs, generalizedContent_eq]
    exact if_neg h

end Time

/-- Reads `v` as one of the two types of times. -/
def Der.Value.timeAs (v : Value) : TimeKind → Except Error Time
  | .utc => v.utcTime
  | .generalized => v.generalizedTime

theorem EncodedTime.timeAs_element (kind : TimeKind) (content : Bytes) :
    (element kind content).timeAs kind = Time.ofContent kind content := by
  cases kind <;> rfl

namespace Der.Encoder

variable {t : Time} {kind : TimeKind} {b : Bytes} {e : Error}

/-- The call that writes `t` as one of the two types. -/
def Step.ofTime (t : Time) : TimeKind → Step
  | .utc => .utcTime t
  | .generalized => .generalizedTime t

theorem Step.put_ofTime (t : Time) (kind : TimeKind) :
    (ofTime t kind).put = (do element (EncodedTime.tag kind) (← t.contentAs kind)) := by
  cases kind
  · rw [ofTime, put]
    rfl
  · rw [ofTime, put]
    rfl

theorem Step.on_ofTime_of_ok (h : t.contentAs kind = .ok b) (buffer : Bytes) :
    (ofTime t kind).put.on buffer = (.ok (), buffer ++ (EncodedTime.element kind b).octets) := by
  rw [put_ofTime, h]
  exact writes_element (EncodedTime.short_tag kind) buffer

theorem Step.on_ofTime_of_error (h : t.contentAs kind = .error e) (buffer : Bytes) :
    (ofTime t kind).put.on buffer = (.error e, buffer) := by
  rw [put_ofTime, h]
  rfl

/-- A time `t` with a year that the type `kind` spells is appended as an element `v` that is read as
the whole second of `t`. Another one is refused (`Time.refusal`), and nothing is written. -/
theorem Step.on_ofTime (t : Time) (kind : TimeKind) (buffer : Bytes) :
    (kind.Spells t.utcYear → ∃ v : Value,
      (ofTime t kind).put.on buffer = (.ok (), buffer ++ v.octets) ∧ decode v.octets = .ok v ∧
      v.timeAs kind = .ok t.wholeSecond ∧ v.time = .ok t.wholeSecond) ∧
    (¬kind.Spells t.utcYear →
      (ofTime t kind).put.on buffer = (.error (t.refusal kind), buffer)) := by
  refine ⟨fun hspells => ?_, fun h => on_ofTime_of_error (Time.contentAs_of_not_spells h) buffer⟩
  obtain ⟨b, hb⟩ := Time.exists_contentAs hspells
  have hread := Time.ofContent_contentAs hb
  have hoctets : (EncodedTime.element kind b).octets = Write.element (EncodedTime.tag kind) b :=
    Value.octets_ofOctet (EncodedTime.short_tag kind) b
  refine ⟨_, on_ofTime_of_ok hb buffer, ?_, ?_, ?_⟩
  · rw [hoctets]
    exact EncodedTime.decode_element hb
  · rw [EncodedTime.timeAs_element, hread]
  · rw [EncodedTime.time_element, hread]

/-- A call that writes `t` succeeds exactly where the type `kind` spells the year in UTC. -/
theorem Step.on_ofTime_eq_ok (t : Time) (kind : TimeKind) (buffer : Bytes) :
    ((ofTime t kind).put.on buffer).1 = .ok () ↔ kind.Spells t.utcYear := by
  obtain ⟨hwritten, hrefused⟩ := on_ofTime t kind buffer
  constructor
  · intro h
    by_contra hspells
    rw [hrefused hspells] at h
    cases h
  · intro hspells
    obtain ⟨v, hon, -⟩ := hwritten hspells
    rw [hon]

/-- **Times are read back.** Whatever a clock shows and whatever is in the `buffer`, a time `t` is
written as a GeneralizedTime exactly if its year in UTC has four digits and no sign, and as a
UTCTime exactly if that year lies between 1950 and 2049. The element that is appended, `v`, is read,
by either reader, as `t.wholeSecond`, the point in time without its fraction of a second, before
1970 too. A time that is refused leaves the buffer as it was; the reason is the year or, outside of
the calendar, that there is none (`Time.refusal`). -/
theorem times_read_back (t : Time) (buffer : Bytes) :
    ((((Step.generalizedTime t).put.on buffer).1 = .ok () ↔ 0 ≤ t.utcYear ∧ t.utcYear ≤ 9999) ∧
      (0 ≤ t.utcYear ∧ t.utcYear ≤ 9999 → ∃ v : Value,
        (Step.generalizedTime t).put.on buffer = (.ok (), buffer ++ v.octets) ∧
        decode v.octets = .ok v ∧ v.generalizedTime = .ok t.wholeSecond ∧
        v.time = .ok t.wholeSecond) ∧
      (¬(0 ≤ t.utcYear ∧ t.utcYear ≤ 9999) → (Step.generalizedTime t).put.on buffer =
        (.error (t.refusal .generalized), buffer))) ∧
    ((((Step.utcTime t).put.on buffer).1 = .ok () ↔ 1950 ≤ t.utcYear ∧ t.utcYear ≤ 2049) ∧
      (1950 ≤ t.utcYear ∧ t.utcYear ≤ 2049 → ∃ v : Value,
        (Step.utcTime t).put.on buffer = (.ok (), buffer ++ v.octets) ∧
        decode v.octets = .ok v ∧ v.utcTime = .ok t.wholeSecond ∧
        v.time = .ok t.wholeSecond) ∧
      (¬(1950 ≤ t.utcYear ∧ t.utcYear ≤ 2049) → (Step.utcTime t).put.on buffer =
        (.error (t.refusal .utc), buffer))) :=
  ⟨⟨Step.on_ofTime_eq_ok t .generalized buffer, Step.on_ofTime t .generalized buffer⟩,
    Step.on_ofTime_eq_ok t .utc buffer, Step.on_ofTime t .utc buffer⟩

/-- `Step.utcTime` at a nanosecond before 1970, which belongs to the last second of 1969, also where
the clock shows 1970. -/
example : (Step.utcTime ⟨-1, 999999999, 3600⟩).put.on [] =
    (.ok (), Write.element Tag.utcTime (Bytes.ofString "691231235959Z")) := by decide

end Der.Encoder

end Pkix
