import Pkix.Proofs.Der.Encoder

/-!
# Integers have one encoding

A value says a number exactly where an encoder writes the value for the number.

* `Value.integer_eq_ok_iff_put`, `Value.enumerated_eq_ok_iff_put`: numbers of any size, and of 64
  bits with a sign.
* `Value.exists_word_iff`: which numbers have 32 bits without a sign.
* `Value.one_integer_encoding`: all of them, and what their octets have to do with the number.
-/

namespace Pkix.Der.Value

open Encoder

variable {v : Value}

theorem integer_eq_ok_iff_put {n : Int} :
    v.integer = .ok n ↔ (Step.integer n).put.on [] = (.ok (), v.octets) :=
  integer_eq_ok.trans (Step.put_on_nil_iff (s := .integer n) trivial rfl).symm

theorem enumerated_eq_ok_iff_put {n : Int64} :
    v.enumerated = .ok n ↔ (Step.enumerated n).put.on [] = (.ok (), v.octets) :=
  enumerated_eq_ok.trans (Step.put_on_nil_iff (s := .enumerated n) trivial rfl).symm

theorem word_eq_ok_iff_integer {n : UInt32} :
    v.word = .ok n ↔ v.integer = .ok (n.toNat : Int) := by
  rw [word_eq_ok, integer_eq_ok]

/-- `v` says a number of 32 bits where its number is neither negative nor too large. -/
theorem exists_word_iff :
    (∃ k, v.word = .ok k) ↔ ∃ n, v.integer = .ok n ∧ 0 ≤ n ∧ n < UInt32.size := by
  constructor
  · rintro ⟨k, hk⟩
    have hlt := k.toNat_lt
    exact ⟨k.toNat, word_eq_ok_iff_integer.mp hk, Int.natCast_nonneg _, by rw [UInt32.size]; omega⟩
  · rintro ⟨n, hn, h0, hlt⟩
    refine ⟨UInt32.ofNat n.toNat, word_eq_ok_iff_integer.mpr ?_⟩
    rw [UInt32.toNat_ofNat_of_lt' (by omega), Int.toNat_of_nonneg h0]
    exact hn

/-- **Integers have one encoding.** `v` says `n`, of any size, exactly where it is what an encoder
writes for `n` on a fresh buffer, so no second value says it; the same holds of numbers `k` of 64
bits with a sign. It says a number of 32 bits exactly where it says one that is neither negative nor
too large, and the two are the same. What is written, `BigEndian.ofInt n`, is the shortest two's
complement of `n`. -/
theorem one_integer_encoding :
    (∀ (v : Value) (n : Int),
      v.integer = .ok n ↔ (Step.integer n).put.on [] = (.ok (), v.octets)) ∧
    (∀ (v : Value) (k : UInt32), v.word = .ok k ↔ v.integer = .ok (k.toNat : Int)) ∧
    (∀ v : Value, (∃ k, v.word = .ok k) ↔ ∃ n, v.integer = .ok n ∧ 0 ≤ n ∧ n < UInt32.size) ∧
    (∀ (v : Value) (k : Int64),
      v.enumerated = .ok k ↔ (Step.enumerated k).put.on [] = (.ok (), v.octets)) ∧
    (∀ (b : Bytes) (n : Int), b = BigEndian.ofInt n ↔
      b ≠ [] ∧ BigEndian.toInt b = n ∧
        ∀ c : Bytes, c ≠ [] → BigEndian.toInt c = n → b.length ≤ c.length) ∧
    (∀ b : Bytes, BigEndian.toInt b =
      BigEndian.toNat b - (if b.headD 0 < 0x80 then 0 else 1 <<< (8 * b.length) : Nat)) :=
  ⟨fun _ _ => integer_eq_ok_iff_put, fun _ _ => word_eq_ok_iff_integer, fun _ => exists_word_iff,
    fun _ _ => enumerated_eq_ok_iff_put, fun _ _ => BigEndian.eq_ofInt_iff, BigEndian.toInt_eq⟩

/-- `integer` at the first number of two octets, and at the same octets with an idle one before
them. -/
example : (ofOctet Tag.integer [0x00, 0x80]).integer = .ok 128 ∧
    (ofOctet Tag.integer [0x80]).integer = .ok (-128) ∧
    (ofOctet Tag.integer [0xFF, 0x80]).integer = .error (.malformed .integerPadded) := by
  decide +kernel

end Pkix.Der.Value
