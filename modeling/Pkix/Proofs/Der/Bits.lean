import Pkix.Proofs.Der.Encoder
import Mathlib.Data.Nat.Bitwise
import Mathlib.Tactic.IntervalCases

/-!
# Bit strings have one representation

The unused bits of a bit string are zero, so its bits tell its octets.

* `BitString.get_eq`: where the bit of an index stands in the octets.
* `BitString.flatMap_octets`: the bits of the octets are those of the string and the unused ones.
* `BitString.toBools_inj`, `BitString.ofBools_toBools`: the bits tell the string.
* `BitString.exists_toBools_eq_append`, `BitString.getLast?_toBools_truncated`: what truncating
  leaves.
* `BitString.one_representation`: these together with what is written and read.
-/

namespace Pkix.Der.BitString

open Encoder

variable {s t : BitString}

/-! ## Bits of octets -/

theorem getElem?_bitsOfOctet (x : UInt8) {j : Nat} (h : j < 8) :
    (bitsOfOctet x)[j]? = some (x.toNat.testBit (7 - j)) := by
  interval_cases j <;> rfl

theorem bitsOfOctet_inj {x y : UInt8} (h : bitsOfOctet x = bitsOfOctet y) : x = y := by
  apply UInt8.toNat_inj.mp
  apply Nat.eq_of_testBit_eq
  intro j
  by_cases hj : j < 8
  · have hbit := congrArg (·[7 - j]?) h
    simp only [getElem?_bitsOfOctet _ (show 7 - j < 8 by omega), Option.some.injEq] at hbit
    rwa [show 7 - (7 - j) = j by omega] at hbit
  · have hle : 2 ^ 8 ≤ 2 ^ j := Nat.pow_le_pow_right (by decide) (Nat.not_lt.mp hj)
    rw [Nat.testBit_lt_two_pow (Nat.lt_of_lt_of_le x.toNat_lt hle),
      Nat.testBit_lt_two_pow (Nat.lt_of_lt_of_le y.toNat_lt hle)]

theorem flatMap_bitsOfOctet_inj {a b : Bytes} (h : a.flatMap bitsOfOctet = b.flatMap bitsOfOctet) :
    a = b := by
  induction a generalizing b with
  | nil =>
    cases b with
    | nil => rfl
    | cons y b => cases h
  | cons x a ih =>
    cases b with
    | nil => cases h
    | cons y b =>
      obtain ⟨hhead, htail⟩ := List.append_inj h rfl
      rw [bitsOfOctet_inj hhead, ih htail]

/-- Bit `i` stands in octet `i / 8`, after eight bits for every octet of `b` before that. -/
theorem getElem?_flatMap_bitsOfOctet (b : Bytes) (i : Nat) :
    (b.flatMap bitsOfOctet)[i]? = b[i / 8]?.map fun x => x.toNat.testBit (7 - i % 8) := by
  induction b generalizing i with
  | nil => rfl
  | cons x b ih =>
    rw [List.flatMap_cons]
    by_cases hi : i < 8
    · rw [List.getElem?_append_left hi, getElem?_bitsOfOctet x hi, show i / 8 = 0 by omega,
        Nat.mod_eq_of_lt hi]
      rfl
    · rw [List.getElem?_append_right (Nat.not_lt.mp hi), length_bitsOfOctet, ih,
        show i / 8 = (i - 8) / 8 + 1 by omega, show (i - 8) % 8 = i % 8 by omega]
      rfl

/-- The bit of `x` is set that a mask with one bit leaves. -/
theorem and_mask_ne_zero (x : UInt8) {j : Nat} (h : j < 8) :
    (x &&& (0x80 >>> UInt8.ofNat j) != 0) = x.toNat.testBit (7 - j) := by
  have hmask : (0x80 >>> UInt8.ofNat j : UInt8).toNat = 2 ^ (7 - j) := by
    interval_cases j <;> rfl
  rw [Bool.eq_iff_iff, bne_iff_ne, ne_eq, octet_eq_zero, UInt8.toNat_and, hmask, Nat.and_two_pow]
  cases x.toNat.testBit (7 - j) <;> simp

/-- `s.get i` is the bit that octet `i / 8` has at the remainder of `i`. -/
theorem get_eq (s : BitString) (i : Nat) :
    s.get i = (decide (i < s.length) &&
      (s.octets.getD (i / 8) 0 &&& (0x80 >>> UInt8.ofNat (i % 8))) != 0) := by
  rw [and_mask_ne_zero _ (Nat.mod_lt i (by decide)), get, toBools, List.getD_eq_getElem?_getD]
  by_cases hi : i < s.length
  · have hoctet : i / 8 < s.octets.length := by
      unfold length at hi
      omega
    rw [List.getElem?_take_of_lt hi, getElem?_flatMap_bitsOfOctet,
      List.getD_eq_getElem _ _ hoctet, List.getElem?_eq_getElem hoctet]
    simp [hi]
  · rw [List.getElem?_take_eq_none (Nat.not_lt.mp hi)]
    simp [hi]

/-! ## Unused bits -/

/-- An octet `x` that `2 ^ n` divides ends with `n` bits that are not set. -/
theorem drop_bitsOfOctet {x : UInt8} {n : Nat} (hn : n ≤ 8) (h : x.toNat % (1 <<< n) = 0) :
    (bitsOfOctet x).drop (8 - n) = List.replicate n false := by
  obtain ⟨q, hq⟩ : 2 ^ n ∣ x.toNat := by
    rw [← Nat.one_shiftLeft]
    exact Nat.dvd_of_mod_eq_zero h
  apply List.ext_getElem?
  intro i
  rw [List.getElem?_drop]
  by_cases hi : i < n
  · have hlow : ¬7 - (8 - n + i) ≥ n := by omega
    rw [getElem?_bitsOfOctet x (by omega), List.getElem?_replicate_of_lt hi, hq,
      Nat.testBit_two_pow_mul]
    simp [hlow]
  · rw [List.getElem?_eq_none (by rw [length_bitsOfOctet]; omega),
      List.getElem?_eq_none (by rw [List.length_replicate]; omega)]

/-- There are no octets in `s`, or the last one ends with the unused bits, which are at most
seven. -/
theorem octets_cases (s : BitString) :
    (s.octets = [] ∧ s.unused = 0) ∨
      ∃ init x, s.octets = init ++ [x] ∧ s.unused.toNat ≤ 7 ∧
        x.toNat % (1 <<< s.unused.toNat) = 0 := by
  obtain ⟨octets, unused, hvalid⟩ := s
  obtain rfl | ⟨init, x, rfl⟩ := octets.eq_nil_or_concat'
  · simp only [wellFormed, List.getLast?_nil, Bool.and_eq_true, beq_iff_eq] at hvalid
    exact .inl ⟨rfl, hvalid.2⟩
  · simp only [wellFormed, List.getLast?_concat, Bool.and_eq_true, beq_iff_eq, decide_eq_true_eq,
      UInt8.le_iff_toNat_le] at hvalid
    exact .inr ⟨init, x, rfl, hvalid⟩

theorem unused_le_seven (s : BitString) : s.unused.toNat ≤ 7 := by
  obtain ⟨-, hunused⟩ | ⟨init, x, -, hle, -⟩ := s.octets_cases
  · rw [hunused]
    exact Nat.zero_le 7
  · exact hle

/-- The bits of `s` and the unused ones fill its octets. -/
theorem length_add_unused (s : BitString) : s.length + s.unused.toNat = s.octets.length * 8 := by
  unfold length
  obtain ⟨hoctets, hunused⟩ | ⟨init, x, hoctets, hle, -⟩ := s.octets_cases
  · rw [hoctets, hunused]
    rfl
  · rw [hoctets, List.length_append, List.length_singleton]
    omega

theorem toNat_unused (s : BitString) : s.unused.toNat = spare s.length := by
  have hle := s.unused_le_seven
  have hfill := s.length_add_unused
  unfold spare
  omega

theorem length_toBools (s : BitString) : s.toBools.length = s.length := by
  have hfill := s.length_add_unused
  rw [toBools, List.length_take, length_flatMap_bitsOfOctet]
  omega

/-- The octets of `s` are its bits and the unused ones, which are not set. -/
theorem flatMap_octets (s : BitString) :
    s.octets.flatMap bitsOfOctet = s.toBools ++ List.replicate (spare s.length) false := by
  have hunused : (s.octets.flatMap bitsOfOctet).drop s.length =
      List.replicate (spare s.length) false := by
    rw [← toNat_unused, length]
    obtain ⟨hoctets, hunused⟩ | ⟨init, x, hoctets, hle, hmod⟩ := s.octets_cases
    · rw [hoctets, hunused]
      rfl
    · have hinit : (init ++ [x]).length * 8 - s.unused.toNat =
          (init.flatMap bitsOfOctet).length + (8 - s.unused.toNat) := by
        rw [length_flatMap_bitsOfOctet, List.length_append, List.length_singleton]
        omega
      rw [hoctets, hinit, List.flatMap_append, List.drop_length_add_append, List.flatMap_singleton,
        drop_bitsOfOctet (by omega) hmod]
  rw [toBools, ← hunused, List.take_append_drop]

/-! ## The bits tell the string -/

theorem toBools_inj (h : s.toBools = t.toBools) : s = t := by
  have hlength : s.length = t.length := by rw [← length_toBools, h, length_toBools]
  have hoctets : s.octets = t.octets := by
    apply flatMap_bitsOfOctet_inj
    rw [flatMap_octets, flatMap_octets, h, hlength]
  have hunused : s.unused = t.unused := by
    apply UInt8.toNat_inj.mp
    rw [toNat_unused, toNat_unused, hlength]
  cases s
  cases t
  cases hoctets
  cases hunused
  rfl

theorem ofBools_toBools (s : BitString) : ofBools s.toBools = s :=
  toBools_inj (toBools_ofBools s.toBools)

theorem new_eq_ok {octets : Bytes} {unused : UInt8} :
    new octets unused = .ok s ↔ s.octets = octets ∧ s.unused = unused := by
  unfold new
  constructor
  · intro h
    split at h
    · cases h
      exact ⟨rfl, rfl⟩
    · split at h <;> cases h
  · rintro ⟨rfl, rfl⟩
    exact dif_pos s.valid

/-! ## Named bits -/

theorem toBools_truncated (s : BitString) : s.truncated.toBools = trim s.toBools :=
  toBools_ofBools _

theorem truncated_truncated (s : BitString) : s.truncated.truncated = s.truncated := by
  rw [truncated, toBools_truncated, trim_trim]
  rfl

theorem getLast?_trim (bits : List Bool) : (trim bits).getLast? ≠ some false := by
  intro h
  obtain ⟨init, hinit⟩ := List.getLast?_eq_some_iff.mp h
  have hidle : trim (init ++ [false]) = trim init := List.rdropWhile_concat_pos _ _ _ rfl
  have hle := length_trim_le init
  rw [← hidle, ← hinit, trim_trim, hinit, List.length_append, List.length_singleton] at hle
  omega

/-- What `s.truncated` leaves is `s` up to its last bit that is set. -/
theorem exists_toBools_eq_append (s : BitString) :
    ∃ n, s.toBools = s.truncated.toBools ++ List.replicate n false := by
  rw [toBools_truncated]
  exact exists_trim_append s.toBools

theorem getLast?_toBools_truncated (s : BitString) :
    s.truncated.toBools.getLast? ≠ some false := by
  rw [toBools_truncated]
  exact getLast?_trim s.toBools

/-! ## What is written and read -/

theorem bitString_eq_ok_iff_put {v : Value} :
    v.bitString = .ok s ↔ (Step.bitString s).put.on [] = (.ok (), v.octets) :=
  Value.bitString_eq_ok.trans (Step.put_on_nil_iff (s := .bitString s) trivial rfl).symm

/-- Named bits of `s` are written as the value of `s.truncated`. -/
theorem exists_namedBits_read_back (s : BitString) :
    ∃ v : Value, (Step.namedBits s).put.on [] = (.ok (), v.octets) ∧
      v.bitString = .ok s.truncated ∧
      (decode v.octets = .ok v ↔ v.octets.length ≤ Limits.default.maxInput) := by
  refine ⟨_, (Step.put_on_nil_iff (s := .namedBits s) trivial rfl).mpr rfl,
    Value.bitString_eq_ok.mpr rfl, ?_⟩
  rw [decode_eq_ok, and_iff_left rfl]

/-- **Bit strings have one representation.** `v` says `s` exactly where it is what an encoder writes
for `s` on a fresh buffer. `ofBools bits` has the `bits` that it is made of, those of its octets
from the most significant on and none past the end; and the bits tell the string, however it was
made. `s.truncated` has the bits up to the last one that is set, and there is nothing left to do a
second time; a string that is written as named bits is read as the truncated one. -/
theorem one_representation :
    (∀ (v : Value) (s : BitString),
      v.bitString = .ok s ↔ (Step.bitString s).put.on [] = (.ok (), v.octets)) ∧
    (∀ (octets : Bytes) (unused : UInt8) (s : BitString),
      new octets unused = .ok s ↔ s.octets = octets ∧ s.unused = unused) ∧
    (∀ bits : List Bool, (ofBools bits).toBools = bits ∧
      ∀ i, (ofBools bits).get i = bits.getD i false) ∧
    (∀ (s : BitString) (i : Nat), s.get i = (decide (i < s.length) &&
      (s.octets.getD (i / 8) 0 &&& (0x80 >>> UInt8.ofNat (i % 8))) != 0)) ∧
    (∀ s : BitString, ofBools s.toBools = s) ∧
    (∀ s : BitString, (∃ n, s.toBools = s.truncated.toBools ++ List.replicate n false) ∧
      s.truncated.toBools.getLast? ≠ some false ∧ s.truncated.truncated = s.truncated) ∧
    (∀ s : BitString, ∃ v : Value, (Step.namedBits s).put.on [] = (.ok (), v.octets) ∧
      v.bitString = .ok s.truncated ∧
      (decode v.octets = .ok v ↔ v.octets.length ≤ Limits.default.maxInput)) := by
  refine ⟨fun v s => bitString_eq_ok_iff_put, fun octets unused s => new_eq_ok,
    fun bits => ⟨toBools_ofBools bits, fun i => ?_⟩, get_eq, ofBools_toBools,
    fun s => ⟨exists_toBools_eq_append s, getLast?_toBools_truncated s, truncated_truncated s⟩,
    exists_namedBits_read_back⟩
  rw [get, toBools_ofBools]

/-- `ofBools` at nine bits of which only the first is set: they take two octets, and one where they
are truncated. -/
example : ((ofBools [true, false, false, false, false, false, false, false, false]).octets,
    (ofBools [true, false, false, false, false, false, false, false, false]).truncated.octets) =
    ([0x80, 0x00], [0x80]) := by
  decide +kernel

end Pkix.Der.BitString
