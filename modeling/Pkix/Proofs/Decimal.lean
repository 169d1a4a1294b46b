import Pkix.Time.Content

/-!
# Numbers in a fixed count of digits are read back

* `Decimal.Fits`: a number has no more digits than the count.
* `Decimal.value_append_digits`: what digits make together with those that follow them.
* `Decimal.take?_octets`: digits that are written for such a number are read as that number,
  whatever follows them.
* `Decimal.take?_eq_some`: and nothing else is read as that number.
* `Decimal.span_append`: digits of no fixed count are read up to what is no digit.
-/

namespace Pkix.Decimal

/-- `Fits width n`: the number `n` has at most `width` decimal digits. -/
def Fits : Nat → Nat → Prop
  | 0, n => n = 0
  | width + 1, n => Fits width (n / 10)

instance decidableFits : (width n : Nat) → Decidable (Fits width n)
  | 0, n => inferInstanceAs (Decidable (n = 0))
  | width + 1, n => decidableFits width (n / 10)

theorem fits_two {n : Nat} (h : n < 100) : Fits 2 n := by
  simp only [Fits]
  omega

theorem fits_four {n : Nat} (h : n < 10000) : Fits 4 n := by
  simp only [Fits]
  omega

theorem isDigit_iff {x : UInt8} : isDigit x = true ↔ 48 ≤ x.toNat ∧ x.toNat ≤ 57 := by
  simp only [isDigit, Bool.and_eq_true, decide_eq_true_eq, UInt8.le_iff_toNat_le]
  rfl

/-- The octet of the last digit of `n`. -/
theorem toNat_digit (n : Nat) : (UInt8.ofNat (n % 10 + 48)).toNat = n % 10 + 48 := by
  rw [UInt8.toNat_ofNat']
  omega

theorem isDigit_digit (n : Nat) : isDigit (UInt8.ofNat (n % 10 + 48)) = true := by
  rw [isDigit_iff, toNat_digit]
  omega

theorem length_octets (width n : Nat) : (octets width n).length = width := by
  induction width generalizing n with
  | zero => rfl
  | succ width ih => rw [octets, List.length_append, ih, List.length_singleton]

theorem isDigit_of_mem_octets {width n : Nat} {x : UInt8} (h : x ∈ octets width n) :
    isDigit x = true := by
  induction width generalizing n with
  | zero => cases h
  | succ width ih =>
    rw [octets, List.mem_append, List.mem_singleton] at h
    obtain h | rfl := h
    · exact ih h
    · exact isDigit_digit n

/-- One digit more, `x`, is the last digit of ten times the number. -/
theorem value_append (digits : Bytes) (x : UInt8) :
    value (digits ++ [x]) = value digits * 10 + (x.toNat - 48) := by
  rw [value, List.foldl_append, List.foldl_cons, List.foldl_nil]
  rfl

/-- The digits of a number `n` that `Fits` make the number. -/
theorem value_octets {width n : Nat} (h : Fits width n) : value (octets width n) = n := by
  induction width generalizing n with
  | zero => exact Eq.symm h
  | succ width ih =>
    rw [octets, value_append, ih h, toNat_digit]
    omega

/-- The `digits` are those of the number that they make, which is not too long for them. -/
theorem octets_value {digits : Bytes} (h : digits.all isDigit = true) :
    Fits digits.length (value digits) ∧ octets digits.length (value digits) = digits := by
  obtain ⟨r, rfl⟩ : ∃ r : Bytes, digits = r.reverse := ⟨digits.reverse, by simp⟩
  induction r with
  | nil => exact ⟨rfl, rfl⟩
  | cons x r ih =>
    rw [List.reverse_cons, List.all_append, Bool.and_eq_true] at h
    obtain ⟨hr, hx⟩ := h
    have hdigit := isDigit_iff.mp (List.all_eq_true.mp hx x (List.mem_singleton_self x))
    obtain ⟨hfits, hoctets⟩ := ih hr
    have hinit : (value r.reverse * 10 + (x.toNat - 48)) / 10 = value r.reverse := by omega
    have hlast : (value r.reverse * 10 + (x.toNat - 48)) % 10 + 48 = x.toNat := by omega
    rw [List.reverse_cons, List.length_append, List.length_singleton, value_append, Fits, octets,
      hinit, hlast, UInt8.ofNat_toNat, hoctets]
    exact ⟨hfits, rfl⟩

/-- Digits `a` before others count as many times more as the others, `b`, have places. -/
theorem value_append_digits (a b : Bytes) :
    value (a ++ b) = value a * Nat.pow 10 b.length + value b := by
  obtain ⟨r, rfl⟩ : ∃ r : Bytes, b = r.reverse := ⟨b.reverse, by simp⟩
  induction r with
  | nil =>
    rw [List.reverse_nil, List.append_nil]
    exact (Nat.mul_one _).symm
  | cons x r ih =>
    have hpow : Nat.pow 10 (r.reverse.length + 1) = Nat.pow 10 r.reverse.length * 10 := rfl
    rw [List.reverse_cons, ← List.append_assoc, value_append, ih, value_append, List.length_append,
      List.length_singleton, hpow, Nat.add_mul, Nat.mul_assoc, Nat.add_assoc]

theorem value_replicate_zero (n : Nat) : value (List.replicate n 0x30) = 0 := by
  induction n with
  | zero => rfl
  | succ n ih =>
    rw [List.replicate_succ', value_append, ih]
    rfl

/-- A number `n` with `width` digits is less than the first one with more. -/
theorem Fits.lt_pow {width n : Nat} (h : Fits width n) : n < Nat.pow 10 width := by
  induction width generalizing n with
  | zero =>
    obtain rfl : n = 0 := h
    exact Nat.one_pos
  | succ width ih =>
    have hdiv := ih h
    have hpow : Nat.pow 10 (width + 1) = Nat.pow 10 width * 10 := rfl
    omega

/-- The digits of `n` are taken from the start of the octets, and `rest` is left. -/
theorem take?_octets {width n : Nat} (h : Fits width n) (rest : Bytes) :
    take? width (octets width n ++ rest) = some (n, rest) := by
  have hlength := length_octets width n
  have hall : (octets width n).all isDigit = true :=
    List.all_eq_true.mpr fun _ => isDigit_of_mem_octets
  rw [take?, List.take_left' hlength, List.drop_left' hlength, if_pos ⟨hlength, hall⟩,
    value_octets h]

/-- The digits at the start of `b` are taken for `n` exactly where they spell it. -/
theorem take?_eq_some {width n : Nat} {b rest : Bytes} :
    take? width b = some (n, rest) ↔ Fits width n ∧ b = octets width n ++ rest := by
  constructor
  · intro h
    simp only [take?, Option.ite_none_right_eq_some, Option.some.injEq, Prod.mk.injEq] at h
    obtain ⟨⟨hlength, hall⟩, rfl, rfl⟩ := h
    obtain ⟨hfits, hoctets⟩ := octets_value hall
    rw [hlength] at hfits hoctets
    exact ⟨hfits, by rw [hoctets, List.take_append_drop]⟩
  · rintro ⟨hfits, rfl⟩
    exact take?_octets hfits rest

/-- The octets `b` do not begin with a digit. -/
def NoDigit (b : Bytes) : Prop := ∀ x ∈ b.head?, isDigit x = false

theorem noDigit_dropWhile (b : Bytes) : NoDigit (b.dropWhile isDigit) := by
  intro x hx
  have hhead := List.head?_dropWhile_not isDigit b
  rw [Option.mem_def.mp hx] at hhead
  simpa using hhead

/-- All `digits` are taken where no digit follows them. -/
theorem span_append {digits rest : Bytes} (h : digits.all isDigit = true) (hrest : NoDigit rest) :
    span (digits ++ rest) = (digits, rest) := by
  have hall : ∀ x ∈ digits, isDigit x = true := List.all_eq_true.mp h
  rw [span, List.takeWhile_append_of_pos hall, List.dropWhile_append_of_pos hall]
  cases rest with
  | nil => rw [List.takeWhile_nil, List.dropWhile_nil, List.append_nil]
  | cons x tail =>
    have hx : ¬isDigit x = true := by simp [hrest x rfl]
    rw [List.takeWhile_cons_of_neg hx, List.dropWhile_cons_of_neg hx, List.append_nil]

end Pkix.Decimal
