import Pkix.Base128
import Pkix.Bytes

/-!
# Numbers in groups of seven bits: reading and writing are inverse

* `Base128.decode_eq_ok`: the reader accepts exactly the octets that the writer produces for a
  number below the bound, whatever follows them. The bound has to be a multiple of 128, as every
  power of two from 128 on is.
-/

namespace Pkix.Base128

theorem leading_zero : leading 0 = [] := by rw [leading, if_pos rfl]

theorem leading_of_ne_zero {n : Nat} (hn : n ≠ 0) :
    leading n = leading (n / 128) ++ [UInt8.ofNat (n % 128 + 128)] := by
  rw [leading, if_neg hn]

/-- One more group, `x`, is one more octet, unless the number `acc` is still zero. -/
theorem leading_append {acc : Nat} {x : UInt8} (hx : 128 ≤ x.toNat)
    (h : acc = 0 → x ≠ 0x80) : leading (acc * 128 + (x.toNat - 128)) = leading acc ++ [x] := by
  have hlt := x.toNat_lt
  have hne : acc * 128 + (x.toNat - 128) ≠ 0 := by
    intro h0
    exact h (by omega) (octet_eq_0x80.mpr (by omega))
  rw [leading_of_ne_zero hne, show (acc * 128 + (x.toNat - 128)) / 128 = acc by omega,
    show (acc * 128 + (x.toNat - 128)) % 128 + 128 = x.toNat by omega, UInt8.ofNat_toNat]

/-- No number `n` begins with an idle group. -/
theorem head?_leading {n : Nat} (hn : n ≠ 0) (b : Bytes) :
    (leading n ++ b).head? ≠ some 0x80 := by
  induction n using Nat.strongRecOn generalizing b with
  | ind n ih =>
    rw [leading_of_ne_zero hn, List.append_assoc]
    by_cases h : n / 128 = 0
    · rw [h, leading_zero]
      intro he
      have hx : UInt8.ofNat (n % 128 + 128) = 0x80 := by simpa using he
      rw [octet_eq_0x80, UInt8.toNat_ofNat_of_lt' (show _ < 256 by omega)] at hx
      omega
    · exact ih (n / 128) (by omega) h _

theorem head?_encode (n : Nat) (b : Bytes) : (encode n ++ b).head? ≠ some 0x80 := by
  by_cases h : n / 128 = 0
  · intro he
    have hx : UInt8.ofNat (n % 128) = 0x80 := by simpa [encode, h, leading_zero] using he
    rw [octet_eq_0x80, UInt8.toNat_ofNat_of_lt' (show _ < 256 by omega)] at hx
    omega
  · rw [encode, List.append_assoc]
    exact head?_leading h _

theorem encode_ne_nil (n : Nat) : encode n ≠ [] := by simp [encode]

/-- The groups read so far, `acc`, and the octets to come, `b`, spell the number `n` that is
read. -/
theorem eq_encode_of_decodeFrom {bound acc n : Nat} {b rest : Bytes} (hb : bound % 128 = 0)
    (hpad : acc = 0 → b.head? ≠ some 0x80) (h : decodeFrom bound acc b = .ok (n, rest)) :
    leading acc ++ b = encode n ++ rest ∧ n < bound := by
  induction b generalizing acc with
  | nil => simp [decodeFrom] at h
  | cons x xs ih =>
    have hlt := x.toNat_lt
    rw [decodeFrom] at h
    split at h
    · cases h
    · split at h
      · rename_i hacc hx
        rw [octet_lt_0x80] at hx
        cases h
        refine ⟨?_, by omega⟩
        rw [encode, show (acc * 128 + x.toNat) / 128 = acc by omega,
          show (acc * 128 + x.toNat) % 128 = x.toNat by omega, UInt8.ofNat_toNat,
          List.append_assoc]
        rfl
      · rename_i hacc hx
        rw [octet_lt_0x80, Nat.not_lt] at hx
        have hne : acc = 0 → x ≠ 0x80 := fun h0 e => hpad h0 (by simp [e])
        have hnext : acc * 128 + (x.toNat - 128) = 0 → xs.head? ≠ some 0x80 := by
          intro h0
          exact absurd (octet_eq_0x80.mpr (by omega)) (hne (by omega))
        have := ih hnext h
        rw [leading_append hx hne, List.append_assoc] at this
        exact this

/-- Reading all groups of `n` but the last leaves `decodeFrom` with `n`. -/
theorem decodeFrom_leading {bound n : Nat} (hn : n < bound) (b : Bytes) :
    decodeFrom bound 0 (leading n ++ b) = decodeFrom bound n b := by
  induction n using Nat.strongRecOn generalizing b with
  | ind n ih =>
    by_cases h0 : n = 0
    · rw [h0, leading_zero, List.nil_append]
    · rw [leading_of_ne_zero h0, List.append_assoc, ih (n / 128) (by omega) (by omega),
        List.singleton_append, decodeFrom, if_neg (by omega), if_neg]
      · rw [UInt8.toNat_ofNat_of_lt' (show _ < 256 by omega),
          show n / 128 * 128 + (n % 128 + 128 - 128) = n by omega]
      · rw [octet_lt_0x80, UInt8.toNat_ofNat_of_lt' (show _ < 256 by omega)]
        omega

/-- **Groups of seven bits.** `decode` accepts exactly what `encode` produces for a number `n` below
`bound`. -/
theorem decode_eq_ok {bound n : Nat} {b rest : Bytes} (hb : bound % 128 = 0) :
    decode bound b = .ok (n, rest) ↔ b = encode n ++ rest ∧ n < bound := by
  constructor
  · intro h
    cases b with
    | nil => simp [decode] at h
    | cons x xs =>
      rw [decode] at h
      split at h
      · cases h
      · rename_i hx
        have := eq_encode_of_decodeFrom hb (by simpa using hx) h
        simpa [leading_zero] using this
  · rintro ⟨rfl, hn⟩
    have hhead := head?_encode n rest
    have hfrom : decodeFrom bound 0 (encode n ++ rest) = .ok (n, rest) := by
      rw [encode, List.append_assoc, decodeFrom_leading (by omega), List.singleton_append,
        decodeFrom, if_neg (by omega), if_pos]
      · rw [UInt8.toNat_ofNat_of_lt' (show _ < 256 by omega),
          show n / 128 * 128 + n % 128 = n by omega]
      · rw [octet_lt_0x80, UInt8.toNat_ofNat_of_lt' (show _ < 256 by omega)]
        omega
    cases h : encode n ++ rest with
    | nil => simp [encode] at h
    | cons x xs =>
      rw [h] at hhead hfrom
      rw [decode, if_neg (by simpa using hhead), hfrom]

end Pkix.Base128
