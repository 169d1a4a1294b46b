import Pkix.Proofs.Der.Canonicity
import Mathlib.Data.List.DropRight
import Mathlib.Data.List.GetD

/-!
# Named bits are read back

A list of named bits is written without those after the last one that is set, so what is read back
may be a shorter list; each bit is set in it that was set before.

* `BitString.toBools_ofBools`: a bit string has the bits that it is made of.
* `BitString.getD_trim`, `BitString.trim_trim`: what leaving out trailing bits changes.
* `Value.bitString_eq_ok`: the octets that are read as a bit string.
* `Write.length_namedBits_le`: bits that were read are not longer when they are written.
-/

namespace Pkix.Der

namespace BitString

/-! ## Packing -/

/-- The bits of an octet are the `bits` that it was filled with, filled up with zeros. -/
theorem bitsOfOctet_octetOfBits (bits : List Bool) (h : bits.length ≤ 8) :
    bitsOfOctet (octetOfBits bits) = bits ++ List.replicate (8 - bits.length) false := by
  match bits, h with
  | [], _ => rfl
  | [a], _ => revert a; decide
  | [a, b], _ => revert a b; decide
  | [a, b, c], _ => revert a b c; decide
  | [a, b, c, d], _ => revert a b c d; decide
  | [a, b, c, d, e], _ => revert a b c d e; decide
  | [a, b, c, d, e, f], _ => revert a b c d e f; decide +kernel
  | [a, b, c, d, e, f, g], _ => revert a b c d e f g; decide +kernel
  | [a, b, c, d, e, f, g, i], _ => revert a b c d e f g i; decide +kernel

/-- The bits of `pack bits` are those that were packed, filled up with zeros. -/
theorem flatMap_pack (bits : List Bool) :
    (pack bits).flatMap bitsOfOctet = bits ++ List.replicate (spare bits.length) false := by
  induction bits using pack.induct with
  | case1 => rw [pack, if_pos rfl]; rfl
  | case2 bits hne ih =>
    rw [pack, if_neg hne, List.flatMap_cons, ih,
      bitsOfOctet_octetOfBits _ (List.length_take_le _ _)]
    have hpos := List.length_pos_iff.mpr hne
    by_cases hshort : bits.length ≤ 8
    · have hspare : spare bits.length = 8 - bits.length := by
        unfold spare
        omega
      rw [List.drop_of_length_le hshort, List.take_of_length_le hshort, hspare]
      exact List.append_nil _
    · have hspare : spare (bits.drop 8).length = spare bits.length := by
        simp only [spare, List.length_drop]
        omega
      have hfull : 8 - (bits.take 8).length = 0 := by
        rw [List.length_take]
        omega
      rw [hspare, hfull, List.replicate_zero, List.append_nil, ← List.append_assoc,
        List.take_append_drop]

theorem length_bitsOfOctet (x : UInt8) : (bitsOfOctet x).length = 8 := rfl

theorem length_flatMap_bitsOfOctet (b : Bytes) : (b.flatMap bitsOfOctet).length = b.length * 8 := by
  induction b with
  | nil => rfl
  | cons x b ih =>
    rw [List.flatMap_cons, List.length_append, ih, length_bitsOfOctet, List.length_cons]
    omega

/-- The `bits` and those left over in the last octet fill octets. -/
theorem length_pack (bits : List Bool) :
    (pack bits).length * 8 = bits.length + spare bits.length := by
  rw [← length_flatMap_bitsOfOctet, flatMap_pack, List.length_append, List.length_replicate]

theorem length_ofBools (bits : List Bool) : (ofBools bits).length = bits.length := by
  have hlength := length_pack bits
  have hspare : (UInt8.ofNat (spare bits.length)).toNat = spare bits.length := by
    rw [UInt8.toNat_ofNat', spare]
    omega
  show (pack bits).length * 8 - (UInt8.ofNat (spare bits.length)).toNat = bits.length
  omega

theorem toBools_ofBools (bits : List Bool) : (ofBools bits).toBools = bits := by
  rw [toBools, length_ofBools, ofBools, flatMap_pack, List.take_left]

/-- The bits of `s` need no more octets than `s` has. -/
theorem length_pack_toBools_le (s : BitString) : (pack s.toBools).length ≤ s.octets.length := by
  have hpack := length_pack s.toBools
  have hbools : s.toBools.length ≤ s.octets.length * 8 := by
    rw [toBools, List.length_take, length]
    omega
  unfold spare at hpack
  omega

/-! ## Leaving out trailing bits -/

theorem trim_trim (bits : List Bool) : trim (trim bits) = trim bits :=
  List.rdropWhile_idempotent _ bits

theorem length_trim_le (bits : List Bool) : (trim bits).length ≤ bits.length :=
  (List.rdropWhile_prefix _ bits).length_le

/-- Only bits that are not set are left out by `trim`. -/
theorem exists_trim_append (bits : List Bool) :
    ∃ n, bits = trim bits ++ List.replicate n false := by
  have hsplit := List.takeWhile_append_dropWhile (p := (!·)) (l := bits.reverse)
  have hunset : bits.reverse.takeWhile (!·) =
      List.replicate (bits.reverse.takeWhile (!·)).length false :=
    List.eq_replicate_iff.mpr ⟨rfl, fun b hb => by simpa using List.mem_takeWhile_imp hb⟩
  refine ⟨(bits.reverse.takeWhile (!·)).length, ?_⟩
  rw [trim, ← List.reverse_replicate, ← List.reverse_append, ← hunset, hsplit, List.reverse_reverse]

theorem getD_trim (bits : List Bool) (i : Nat) : (trim bits).getD i false = bits.getD i false := by
  obtain ⟨n, hn⟩ := exists_trim_append bits
  conv => rhs; rw [hn]
  by_cases hi : i < (trim bits).length
  · rw [List.getD_append _ _ _ _ hi]
  · have hle : (trim bits).length ≤ i := Nat.not_lt.mp hi
    rw [List.getD_append_right _ _ _ _ hle, List.getD_eq_default _ _ hle,
      List.getD_eq_getElem?_getD, List.getElem?_getD_replicate_default_eq]

/-- Fewer `bits` need no more octets. -/
theorem length_pack_le {bits bits' : List Bool} (h : bits.length ≤ bits'.length) :
    (pack bits).length ≤ (pack bits').length := by
  have hbits := length_pack bits
  have hbits' := length_pack bits'
  unfold spare at hbits hbits'
  omega

theorem truncated_ofBools (bits : List Bool) : (ofBools bits).truncated = ofBools (trim bits) := by
  rw [truncated, toBools_ofBools]

end BitString

/-! ## Named bits -/

theorem Value.bitString_eq_ok {v : Value} {s : BitString} :
    v.bitString = .ok s ↔ v = ofOctet Tag.bitString (s.unused :: s.octets) := by
  simp only [bitString, bind_eq_ok, require_eq_ok]
  constructor
  · rintro ⟨-, hv, h⟩
    split at h
    · cases h
    · rename_i unused octets hcontent
      rw [BitString.new] at h
      split at h
      · cases h
        rw [hv, hcontent]
      · split at h <;> cases h
  · rintro rfl
    refine ⟨(), rfl, ?_⟩
    simp only [content_ofOctet, BitString.new, dif_pos s.valid]

namespace Write

theorem namedBits_ofBools (bits : List Bool) :
    namedBits (.ofBools bits) = bitString (.ofBools (BitString.trim bits)) := by
  rw [namedBits, BitString.truncated_ofBools]

/-- A longer content `b` makes no shorter element. -/
theorem length_element_le {tag tag' : UInt8} {a b : Bytes} (h : a.length ≤ b.length) :
    (element tag a).length ≤ (element tag' b).length := by
  have hlength := Length.length_octets_le h
  simp only [element, List.length_cons, List.length_append]
  omega

/-- A short `content` has one length octet. -/
theorem length_element_of_lt {tag : UInt8} {content : Bytes} (h : content.length < 128) :
    (element tag content).length = content.length + 2 := by
  simp [element, Length.octets, h]

/-- The bits of `s` are written as named bits in no more octets than `s`. -/
theorem length_namedBits_le (s : BitString) :
    (namedBits (.ofBools s.toBools)).length ≤ (bitString s).length := by
  rw [namedBits_ofBools]
  refine length_element_le (Nat.succ_le_succ ?_)
  exact Nat.le_trans (BitString.length_pack_le (BitString.length_trim_le _))
    (BitString.length_pack_toBools_le s)

end Write

end Pkix.Der
