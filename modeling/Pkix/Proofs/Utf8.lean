import Pkix.Bytes
import Mathlib.Data.List.Infix

/-!
# The octets of a text

A character of ASCII is the octet of its number, and no other character has an octet below 128. So
what readers look for in the octets of a text, they find where the text has the character.

* `Bytes.ofString_eq_flatMap`: the octets of a text are those of its characters.
* `Bytes.toString?_eq_some`: octets are read as the text whose octets they are.
* `Bytes.mem_ofString`, `Bytes.head?_ofString`, `Bytes.pair_infix_ofString`: characters of ASCII in
  a text, at its start, and next to each other.
-/

namespace Pkix

/-- `a` and `b` stand next to each other at the start of a list or after it. -/
theorem pair_infix_cons_cons {α : Type} {a b x y : α} {l : List α} :
    [a, b] <:+: x :: y :: l ↔ (a = x ∧ b = y) ∨ [a, b] <:+: y :: l := by
  rw [List.infix_cons_iff, List.cons_prefix_cons, List.cons_prefix_cons]
  simp

/-- `a` and `b` do not stand next to each other across what is not `a`. -/
theorem pair_infix_cons_of_ne {α : Type} {a b x : α} {l : List α} (h : a ≠ x) :
    [a, b] <:+: x :: l ↔ [a, b] <:+: l := by
  rw [List.infix_cons_iff, List.cons_prefix_cons]
  simp [h]

namespace Bytes

/-! ## Characters -/

theorem ofString_ofList (cs : List Char) :
    ofString (String.ofList cs) = cs.flatMap String.utf8EncodeChar := by
  rw [ofString, String.toUTF8_eq_toByteArray, String.toByteArray_ofList]
  exact List.toList_data_toByteArray

theorem ofString_eq_flatMap (s : String) :
    ofString s = s.toList.flatMap String.utf8EncodeChar := by
  rw [← ofString_ofList, String.ofList_toList]

theorem ofString_append (s t : String) : ofString (s ++ t) = ofString s ++ ofString t := by
  simp only [ofString_eq_flatMap, String.toList_append, List.flatMap_append]

theorem toString?_eq_some {b : Bytes} {s : String} : toString? b = some s ↔ b = ofString s := by
  rw [toString?, String.fromUTF8?]
  constructor
  · intro h
    split at h
    · cases h
      rfl
    · cases h
  · rintro rfl
    have hdata : ByteArray.mk (ofString s).toArray = s.toByteArray := rfl
    rw [hdata, dif_pos s.isValidUTF8]
    rfl

theorem toString?_ofString (s : String) : toString? (ofString s) = some s :=
  toString?_eq_some.mpr rfl

theorem flatMap_utf8EncodeChar_eq_nil {cs : List Char} :
    cs.flatMap String.utf8EncodeChar = [] ↔ cs = [] := by
  rw [List.flatMap_eq_nil_iff]
  constructor
  · intro h
    refine List.eq_nil_iff_forall_not_mem.mpr fun c hc => ?_
    exact String.utf8EncodeChar_ne_nil (h c hc)
  · rintro rfl
    simp

/-! ## ASCII -/

variable {c : Char}

theorem utf8EncodeChar_of_lt (h : c.toNat < 128) :
    String.utf8EncodeChar c = [UInt8.ofNat c.toNat] := by
  have hle : c.val.toNat ≤ 127 := Nat.le_of_lt_succ h
  simp only [String.utf8EncodeChar, hle]
  rfl

/-- The octets of a character `c` beyond ASCII have their highest bit set. -/
theorem le_of_mem_utf8EncodeChar (h : ¬c.toNat < 128) :
    ∀ x ∈ String.utf8EncodeChar c, 128 ≤ x.toNat := by
  have hgt : ¬c.val.toNat ≤ 127 := by
    intro hle
    exact h (Nat.lt_succ_of_le hle)
  have hoctet : ∀ n, 128 ≤ n → n < 256 → 128 ≤ (UInt8.ofNat n).toNat := by
    intro n hn hlt
    rw [UInt8.toNat_ofNat_of_lt' hlt]
    exact hn
  rw [String.utf8EncodeChar, if_neg hgt]
  split
  · simp only [List.forall_mem_cons]
    refine ⟨hoctet _ ?_ ?_, hoctet _ ?_ ?_, by simp⟩ <;> omega
  · split
    · simp only [List.forall_mem_cons]
      refine ⟨hoctet _ ?_ ?_, hoctet _ ?_ ?_, hoctet _ ?_ ?_, by simp⟩ <;> omega
    · simp only [List.forall_mem_cons]
      refine ⟨hoctet _ ?_ ?_, hoctet _ ?_ ?_, hoctet _ ?_ ?_, hoctet _ ?_ ?_, by simp⟩ <;> omega

variable {a b : Char}

theorem toNat_octet (ha : a.toNat < 128) : (UInt8.ofNat a.toNat).toNat = a.toNat :=
  UInt8.toNat_ofNat_of_lt' (Nat.lt_trans ha (by decide))

/-- An octet of ASCII, that of `a`, is a character of its own. -/
theorem eq_of_mem_utf8EncodeChar (ha : a.toNat < 128)
    (h : UInt8.ofNat a.toNat ∈ String.utf8EncodeChar c) : c = a := by
  by_cases hc : c.toNat < 128
  · rw [utf8EncodeChar_of_lt hc, List.mem_singleton] at h
    have heq := congrArg UInt8.toNat h
    rw [toNat_octet ha, toNat_octet hc] at heq
    exact (Char.toNat_inj.mp heq).symm
  · have hle := le_of_mem_utf8EncodeChar hc _ h
    rw [toNat_octet ha] at hle
    omega

/-- Where the octet of an ASCII character `a` is cut out, the text `cs` is cut around `a`. -/
theorem flatMap_utf8EncodeChar_eq_append_cons {cs : List Char} {l r : Bytes} (ha : a.toNat < 128)
    (h : cs.flatMap String.utf8EncodeChar = l ++ UInt8.ofNat a.toNat :: r) :
    ∃ before after, cs = before ++ a :: after ∧ before.flatMap String.utf8EncodeChar = l ∧
      after.flatMap String.utf8EncodeChar = r := by
  induction cs generalizing l with
  | nil => simp at h
  | cons c cs ih =>
    rw [List.flatMap_cons, List.append_eq_append_iff] at h
    obtain ⟨l', rfl, hrest⟩ | ⟨w, hw, hrest⟩ := h
    · obtain ⟨before, after, rfl, rfl, rfl⟩ := ih hrest
      exact ⟨c :: before, after, rfl, rfl, rfl⟩
    · cases w with
      | nil =>
        obtain ⟨before, after, rfl, hbefore, rfl⟩ := ih (l := []) hrest.symm
        refine ⟨c :: before, after, rfl, ?_, rfl⟩
        rw [List.flatMap_cons, hbefore, hw]
        simp
      | cons x w =>
        obtain ⟨rfl, rfl⟩ := List.cons_eq_cons.mp hrest
        obtain rfl := eq_of_mem_utf8EncodeChar ha (by rw [hw]; simp)
        rw [utf8EncodeChar_of_lt ha] at hw
        cases l with
        | nil =>
          obtain ⟨-, rfl⟩ := List.cons_eq_cons.mp hw
          exact ⟨[], cs, rfl, rfl, rfl⟩
        | cons y l =>
          obtain ⟨-, hnil⟩ := List.cons_eq_cons.mp hw
          simp at hnil

/-- The octet of an ASCII character `a` is among those of the texts with `a`. -/
theorem mem_ofString {s : String} (ha : a.toNat < 128) :
    UInt8.ofNat a.toNat ∈ ofString s ↔ a ∈ s.toList := by
  rw [ofString_eq_flatMap]
  constructor
  · intro h
    obtain ⟨c, hc, hmem⟩ := List.mem_flatMap.mp h
    rwa [eq_of_mem_utf8EncodeChar ha hmem] at hc
  · intro h
    refine List.mem_flatMap.mpr ⟨a, h, ?_⟩
    rw [utf8EncodeChar_of_lt ha]
    exact List.mem_singleton.mpr rfl

/-- A text `s` begins with an ASCII character `a` if its octets begin with that of `a`. -/
theorem head?_ofString {s : String} (ha : a.toNat < 128) :
    (ofString s).head? = some (UInt8.ofNat a.toNat) ↔ s.toList.head? = some a := by
  rw [ofString_eq_flatMap, List.head?_eq_some_iff, List.head?_eq_some_iff]
  constructor
  · rintro ⟨r, h⟩
    obtain ⟨before, after, hs, hbefore, -⟩ :=
      flatMap_utf8EncodeChar_eq_append_cons (l := []) ha h
    rw [flatMap_utf8EncodeChar_eq_nil.mp hbefore] at hs
    exact ⟨after, hs⟩
  · rintro ⟨after, h⟩
    rw [h, List.flatMap_cons, utf8EncodeChar_of_lt ha]
    exact ⟨_, rfl⟩

theorem pair_infix_ofString {s : String} (ha : a.toNat < 128) (hb : b.toNat < 128) :
    [UInt8.ofNat a.toNat, UInt8.ofNat b.toNat] <:+: ofString s ↔ [a, b] <:+: s.toList := by
  rw [ofString_eq_flatMap]
  constructor
  · rintro ⟨l, r, h⟩
    rw [List.append_assoc] at h
    obtain ⟨before, after, hs, -, hafter⟩ := flatMap_utf8EncodeChar_eq_append_cons ha h.symm
    obtain ⟨nothing, rest, rfl, hnothing, -⟩ :=
      flatMap_utf8EncodeChar_eq_append_cons (l := []) hb hafter
    rw [flatMap_utf8EncodeChar_eq_nil.mp hnothing] at hs
    exact ⟨before, rest, by rw [hs, List.append_assoc]; rfl⟩
  · rintro ⟨l, r, h⟩
    refine ⟨l.flatMap String.utf8EncodeChar, r.flatMap String.utf8EncodeChar, ?_⟩
    rw [← h, List.flatMap_append, List.flatMap_append, List.flatMap_cons, List.flatMap_singleton,
      utf8EncodeChar_of_lt ha, utf8EncodeChar_of_lt hb]
    rfl

end Bytes

end Pkix
