import Pkix.Time.Basic

/-!
# The calendar counts every day once

* `Date.daysBeforeYear_succ`: a year has as many days as its months have together.
* `Date.yearOf_spec`: the year of a day is the one that the day lies in.
* `Date.ofDayNumber_spec`: the date with a day number exists and has that number.
* `Reading.ofSeconds_spec`: the same for the readings of a clock.
* `Date.le_yearOf_iff`, `Reading.le_seconds`, `Reading.seconds_lt`: what comes after the start of a
  year, and what does not come before it or after its end.
-/

namespace Pkix

namespace Date

/-- The number of days in months with the given `lengths`. -/
def total (lengths : List Nat) : Nat := lengths.foldl (· + ·) 0

theorem total_cons (length : Nat) (rest : List Nat) :
    total (length :: rest) = length + total rest := by
  unfold total
  rw [List.foldl_cons, Nat.zero_add, ← Nat.add_zero length, List.foldl_assoc, Nat.add_zero]

/-- A `year` has 365 days, and one more in a leap year. -/
theorem total_monthLengths (year : Int) :
    total (monthLengths year) = 365 + if isLeap year then 1 else 0 := by
  unfold monthLengths
  split <;> rfl

theorem isLeap_iff {year : Int} :
    isLeap year = true ↔ year % 4 = 0 ∧ (year % 100 ≠ 0 ∨ year % 400 = 0) := by
  simp [isLeap]

/-- A year begins where the `year` before it has had all its days. -/
theorem daysBeforeYear_succ (year : Int) :
    daysBeforeYear (year + 1) = daysBeforeYear year + total (monthLengths year) := by
  rw [total_monthLengths]
  unfold daysBeforeYear
  split
  all_goals
    rename_i h
    rw [isLeap_iff] at h
    omega

/-- The year of a day, `yearOf days`, has begun, and the next one has not. -/
theorem yearOf_spec (days : Int) :
    daysBeforeYear (yearOf days) ≤ days ∧ days < daysBeforeYear (yearOf days + 1) := by
  unfold yearOf
  generalize hguess : days * 400 / 146097 = guess
  have hquotient : 146097 * guess ≤ days * 400 ∧ days * 400 < 146097 * (guess + 1) := by omega
  simp only
  split
  · rename_i h
    rw [Int.sub_add_cancel]
    refine ⟨?_, h⟩
    unfold daysBeforeYear
    omega
  · split
    · rename_i h h'
      refine ⟨h', ?_⟩
      unfold daysBeforeYear
      omega
    · omega

/-- A later year `z` does not begin earlier. -/
theorem daysBeforeYear_mono {y z : Int} (h : y ≤ z) : daysBeforeYear y ≤ daysBeforeYear z := by
  unfold daysBeforeYear
  omega

/-- The days after the start of the year `y` are those of `y` or a later one. -/
theorem le_yearOf_iff {y days : Int} : y ≤ yearOf days ↔ daysBeforeYear y ≤ days := by
  obtain ⟨hstarted, hended⟩ := yearOf_spec days
  constructor
  · intro hle
    have hmono := daysBeforeYear_mono hle
    omega
  · intro hstart
    refine Int.not_lt.mp fun hlt => ?_
    have hmono := daysBeforeYear_mono (show yearOf days + 1 ≤ y by omega)
    omega

/-- The month of a date `d` that exists is one of twelve, and no month has more than 31 days. -/
theorem bounds_of_valid {d : Date} (h : d.valid = true) :
    d.month ≤ 12 ∧ 1 ≤ d.day ∧ d.day ≤ 31 := by
  unfold valid at h
  split at h
  · rename_i length hlength
    simp only [Bool.and_eq_true, decide_eq_true_eq] at h
    have hmonth : d.month - 1 < 12 := (List.getElem?_eq_some_iff.mp hlength).1
    have hlong : ∀ l ∈ monthLengths d.year, l ≤ 31 := by
      unfold monthLengths
      split <;> decide
    have := hlong length (List.mem_of_getElem? hlength)
    omega
  · simp at h

/-- A date `d` does not come before its year. -/
theorem daysBeforeYear_le_dayNumber {d : Date} (h : d.valid = true) :
    daysBeforeYear d.year - epoch ≤ d.dayNumber := by
  have hday := (bounds_of_valid h).2.1
  unfold dayNumber
  omega

/-- The months up to month `i` have no more days than all of them. -/
theorem total_take_add_le {i length : Nat} {lengths : List Nat} (h : lengths[i]? = some length) :
    total (lengths.take i) + length ≤ total lengths := by
  induction lengths generalizing i with
  | nil => cases h
  | cons first rest ih =>
    rw [total_cons]
    cases i with
    | zero =>
      obtain rfl : first = length := by simpa using h
      rw [List.take_zero]
      show 0 + first ≤ _
      omega
    | succ i =>
      rw [List.getElem?_cons_succ] at h
      rw [List.take_succ_cons, total_cons]
      have := ih h
      omega

/-- A date `d` comes before the year after its own. -/
theorem dayNumber_lt_daysBeforeYear {d : Date} (h : d.valid = true) :
    d.dayNumber < daysBeforeYear (d.year + 1) - epoch := by
  unfold valid at h
  split at h
  · rename_i length hlength
    simp only [Bool.and_eq_true, decide_eq_true_eq] at h
    have hle := total_take_add_le hlength
    rw [daysBeforeYear_succ]
    unfold dayNumber daysBeforeMonth
    rw [← total]
    omega
  · simp at h

/-- The month of a day, `monthDay month days lengths`, is the one in which the days of the months
before it run out. -/
theorem monthDay_spec (month : Nat) {days : Nat} {lengths : List Nat} (h : days < total lengths) :
    ∃ i length, lengths[i]? = some length ∧ total (lengths.take i) ≤ days ∧
      days < total (lengths.take i) + length ∧
      monthDay month days lengths = (month + i, days - total (lengths.take i) + 1) := by
  induction lengths generalizing month days with
  | nil => exact absurd h (Nat.not_lt_zero _)
  | cons length rest ih =>
    rw [monthDay]
    split
    · rename_i hlt
      exact ⟨0, length, rfl, Nat.zero_le _, by simpa [total] using hlt, by simp [total]⟩
    · rename_i hle
      rw [total_cons] at h
      obtain ⟨i, found, hfound, hbefore, hafter, heq⟩ := ih (month + 1)
        (show days - length < total rest by omega)
      refine ⟨i + 1, found, hfound, ?_, ?_, ?_⟩
      · rw [List.take_succ_cons, total_cons]
        omega
      · rw [List.take_succ_cons, total_cons]
        omega
      · rw [heq, List.take_succ_cons, total_cons, Prod.mk.injEq]
        omega

/-- The date with the day number `n` exists and has that number. -/
theorem ofDayNumber_spec (n : Int) :
    (ofDayNumber n).valid = true ∧ (ofDayNumber n).dayNumber = n := by
  obtain ⟨hstarted, hended⟩ := yearOf_spec (n + epoch)
  rw [daysBeforeYear_succ] at hended
  have hlt : (n + epoch - daysBeforeYear (yearOf (n + epoch))).toNat <
      total (monthLengths (yearOf (n + epoch))) := by omega
  obtain ⟨i, length, hlength, hbefore, hafter, heq⟩ := monthDay_spec 1 hlt
  have hdate : ofDayNumber n = ⟨yearOf (n + epoch), 1 + i,
      (n + epoch - daysBeforeYear (yearOf (n + epoch))).toNat -
        total ((monthLengths (yearOf (n + epoch))).take i) + 1⟩ := by
    simp only [ofDayNumber, heq]
  rw [hdate]
  constructor
  · have hi : 1 + i - 1 = i := by omega
    simp only [valid, hi, hlength, Bool.and_eq_true, decide_eq_true_eq]
    omega
  · have hi : 1 + i - 1 = i := by omega
    simp only [dayNumber, daysBeforeMonth, hi]
    rw [← total]
    omega

end Date

namespace Reading

/-- The reading after `s` seconds exists and comes after that number of seconds. -/
theorem ofSeconds_spec (s : Int) :
    (ofSeconds s).valid = true ∧ (ofSeconds s).seconds = s := by
  obtain ⟨hvalid, hnumber⟩ := Date.ofDayNumber_spec (s / 86400)
  constructor
  · have hday : (s % 86400).toNat < 86400 := by omega
    simp only [valid, ofSeconds, hvalid, Bool.true_and, Bool.and_eq_true]
    exact ⟨⟨decide_eq_true (by omega), decide_eq_true (by omega)⟩, decide_eq_true (by omega)⟩
  · simp only [seconds, ofSeconds, hnumber]
    omega

/-- A reading `r` does not come before its year. -/
theorem le_seconds {r : Reading} (h : r.valid = true) :
    (Date.daysBeforeYear r.date.year - Date.epoch) * 86400 ≤ r.seconds := by
  simp only [valid, Bool.and_eq_true] at h
  have := Date.daysBeforeYear_le_dayNumber h.1.1.1
  unfold seconds
  omega

/-- A reading `r` comes before the year after its own. -/
theorem seconds_lt {r : Reading} (h : r.valid = true) :
    r.seconds < (Date.daysBeforeYear (r.date.year + 1) - Date.epoch) * 86400 := by
  simp only [valid, Bool.and_eq_true, decide_eq_true_eq] at h
  obtain ⟨⟨⟨hdate, hhour⟩, hminute⟩, hsecond⟩ := h
  have hday := Date.dayNumber_lt_daysBeforeYear hdate
  unfold seconds
  omega

end Reading

end Pkix
