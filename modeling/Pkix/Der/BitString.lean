import Pkix.BigEndian
import Pkix.Error

/-!
# Bit strings

A bit string is kept as its octets and the number of bits of the last octet that do not belong
to it. Those bits are zero, so equal strings have equal octets. Bit 0 is the most significant
bit of the first octet.

* `BitString.new`, `BitString.ofBytes`, `BitString.ofBools`: bit strings from octets and a count
  of unused bits, from whole octets, and from a list of bits.
* `BitString.toBools`, `BitString.get`: the bits, in order and by index; there are none past the
  end.
* `BitString.truncated`: the bits up to the last one that is set, as a named bit list is
  written.
-/

namespace Pkix.Der

/-- The `octets` and the count of `unused` bits form a bit string. -/
def BitString.wellFormed (octets : Bytes) (unused : UInt8) : Bool :=
  unused ≤ 7 && match octets.getLast? with
    | some x => x.toNat % (1 <<< unused.toNat) == 0
    | none => unused == 0

/-- A sequence of bits, its length not bound to be a multiple of eight. -/
structure BitString where
  octets : Bytes
  /-- How many low bits of the last octet are not part of the string. -/
  unused : UInt8
  /-- The `unused` bits are zero, and none are left over where there is no octet. -/
  valid : BitString.wellFormed octets unused = true
deriving DecidableEq

namespace BitString

/-- The bit string with the given octets, without their last `unused` bits, which must be
zero. -/
def new (octets : Bytes) (unused : UInt8) : Except Error BitString :=
  if h : wellFormed octets unused = true then .ok ⟨octets, unused, h⟩
  else if 7 < unused ∨ octets = [] then .error (.malformed (.bitsUnused unused))
  else .error (.malformed .bitsPadding)

/-- The bits of whole `octets`. -/
def ofBytes (octets : Bytes) : BitString where
  octets := octets
  unused := 0
  valid := by cases h : octets.getLast? <;> simp [wellFormed, h, Nat.mod_one]

/-- The bits of an octet `x`, most significant first. -/
def bitsOfOctet (x : UInt8) : List Bool :=
  [7, 6, 5, 4, 3, 2, 1, 0].map x.toNat.testBit

/-- The octet of up to eight `bits`, most significant first, filled up with zeros. -/
def octetOfBits (bits : List Bool) : UInt8 :=
  UInt8.ofNat ((bits.zip [128, 64, 32, 16, 8, 4, 2, 1]).foldl
    (fun n (bit, weight) => if bit then n + weight else n) 0)

/-- The octets of `bits` taken eight at a time. -/
def pack (bits : List Bool) : Bytes :=
  if bits = [] then [] else octetOfBits (bits.take 8) :: pack (bits.drop 8)
termination_by bits.length
decreasing_by
  simp only [List.length_drop]
  have := List.length_pos_iff.mpr ‹¬bits = []›
  omega

/-- How many bits are left over in the last octet of `n` bits. -/
def spare (n : Nat) : Nat := (8 - n % 8) % 8

theorem octetOfBits_mod (bits : List Bool) (h : bits.length ≤ 8) :
    (octetOfBits bits).toNat % (1 <<< (8 - bits.length)) = 0 := by
  match bits, h with
  | [], _ => rfl
  | [a], _ => revert a; decide
  | [a, b], _ => revert a b; decide
  | [a, b, c], _ => revert a b c; decide
  | [a, b, c, d], _ => revert a b c d; decide
  | [a, b, c, d, e], _ => revert a b c d e; decide
  | [a, b, c, d, e, f], _ => revert a b c d e f; decide
  | [a, b, c, d, e, f, g], _ => revert a b c d e f g; decide
  | [a, b, c, d, e, f, g, i], _ => simp [Nat.mod_one]

theorem pack_eq_nil_iff {bits : List Bool} : pack bits = [] ↔ bits = [] := by
  rw [pack]; split <;> simp_all

theorem mod_of_getLast?_pack {bits : List Bool} {x : UInt8} (h : (pack bits).getLast? = some x) :
    x.toNat % (1 <<< spare bits.length) = 0 := by
  induction bits using pack.induct with
  | case1 => simp [pack] at h
  | case2 bits hb ih =>
    rw [pack, if_neg hb] at h
    by_cases hd : bits.drop 8 = []
    · have hlen : bits.length ≤ 8 := by simpa using hd
      have hpos := List.length_pos_iff.mpr hb
      rw [hd, pack_eq_nil_iff.mpr rfl, List.take_of_length_le hlen] at h
      simp only [List.getLast?_singleton, Option.some.injEq] at h
      subst h
      have hs : spare bits.length = 8 - bits.length := by unfold spare; omega
      rw [hs]
      exact octetOfBits_mod bits hlen
    · have hne : pack (bits.drop 8) ≠ [] := fun e => hd (pack_eq_nil_iff.mp e)
      have hs : spare (bits.drop 8).length = spare bits.length := by
        have : 8 < bits.length := by simpa using hd
        simp only [spare, List.length_drop]
        omega
      rw [← hs]
      exact ih (by rwa [List.getLast?_cons_of_ne_nil hne] at h)

theorem wellFormed_pack (bits : List Bool) :
    wellFormed (pack bits) (UInt8.ofNat (spare bits.length)) = true := by
  have hlt : spare bits.length < 8 := Nat.mod_lt _ (by decide)
  have hn : (UInt8.ofNat (spare bits.length)).toNat = spare bits.length := by
    rw [UInt8.toNat_ofNat']; omega
  have hle : UInt8.ofNat (spare bits.length) ≤ 7 := by
    rw [UInt8.le_iff_toNat_le, hn]; exact Nat.le_of_lt_succ hlt
  unfold wellFormed
  simp only [hle, decide_true, Bool.true_and]
  split
  · next x hx => rw [hn, mod_of_getLast?_pack hx]; rfl
  · next hx =>
    rw [List.getLast?_eq_none_iff, pack_eq_nil_iff] at hx
    subst hx
    rfl

/-- The string of the given `bits`. -/
def ofBools (bits : List Bool) : BitString where
  octets := pack bits
  unused := UInt8.ofNat (spare bits.length)
  valid := wellFormed_pack bits

/-- The number of bits of `s`. -/
def length (s : BitString) : Nat := s.octets.length * 8 - s.unused.toNat

/-- There are no bits in `s`. -/
def isEmpty (s : BitString) : Bool := s.length == 0

/-- The bits of `s` in order. -/
def toBools (s : BitString) : List Bool := (s.octets.flatMap bitsOfOctet).take s.length

/-- The bit of `s` at an index `i`, not set past the end. -/
def get (s : BitString) (i : Nat) : Bool := s.toBools.getD i false

/-- The list `bits` without those after the last one that is set. -/
def trim (bits : List Bool) : List Bool := (bits.reverse.dropWhile (!·)).reverse

/-- The bits of `s` without those after the last one that is set. -/
def truncated (s : BitString) : BitString := ofBools (trim s.toBools)

end BitString

end Pkix.Der
