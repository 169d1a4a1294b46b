import Pkix.Key.Private
import Pkix.Proofs.BigEndian
import Pkix.Proofs.Except

/-!
# RSA signatures verify

A root is only given out if it leads back to the octets that are signed, so a signature is right
whichever way the root was taken. What is left is that the root is a number below the modulus and
that numbers and octets of the length of the modulus can be turned into each other.

* `Rsa.PrivateKey.root_lt`: roots are below the modulus.
* `Rsa.verify_sign`: what a key signs, its public key verifies.
-/

namespace Pkix.Rsa

theorem length_pad {length : Nat} {digest : Digest} {value block : Bytes}
    (h : pad length digest value = some block) : block.length = length := by
  simp only [pad, Option.ite_none_left_eq_some, Option.some.injEq] at h
  obtain ⟨hlen, rfl⟩ := h
  simp only [List.length_append, List.length_replicate, List.length_cons, List.length_nil]
  omega

namespace PublicKey

theorem modulus_lt (k : PublicKey) : k.modulus < 1 <<< (8 * k.length) :=
  BigEndian.length_ofNat_le_iff.mp (Nat.le_refl _)

/-- A number `s` below the modulus is a signature in `k.length` octets, if it leads back to the
octets that are signed, `block`. -/
theorem verify_ofNatWidth {k : PublicKey} {digest : Digest} {value block : Bytes} {s : Nat}
    (hblock : pad k.length digest value = some block) (hs : s < k.modulus)
    (hraise : k.raise s = BigEndian.toNat block) :
    k.verify digest value (BigEndian.ofNatWidth k.length s) = true := by
  have hread : BigEndian.toNat (BigEndian.ofNatWidth k.length s) = s :=
    BigEndian.toNat_ofNatWidth (Nat.lt_trans hs k.modulus_lt)
  have hwritten : BigEndian.ofNatWidth k.length (BigEndian.toNat block) = block := by
    rw [← length_pad hblock, BigEndian.ofNatWidth_toNat]
  simp only [verify, hread, BigEndian.length_ofNatWidth, hraise, hwritten, hblock, hs,
    beq_self_eq_true, decide_true, Bool.and_self]

end PublicKey

namespace PrivateKey

theorem modulus_eq (k : PrivateKey) : k.p * k.q = k.publicKey.modulus ∧ 0 < k.p ∧ 0 < k.q := by
  have h := k.valid
  simp only [consistent, Bool.and_eq_true, decide_eq_true_eq, beq_iff_eq] at h
  obtain ⟨⟨⟨⟨⟨hp, hq⟩, hmodulus⟩, -⟩, -⟩, -⟩ := h
  exact ⟨hmodulus, by omega, by omega⟩

/-- A remainder `r` modulo `q` and a multiple of `q` by `t < p` make a number below the product. -/
theorem add_mul_lt {p q r t : Nat} (hr : r < q) (ht : t < p) : r + q * t < p * q := by
  have hle : (t + 1) * q ≤ p * q := Nat.mul_le_mul_right q ht
  rw [Nat.add_mul, Nat.one_mul, Nat.mul_comm t q] at hle
  omega

theorem root_lt (k : PrivateKey) (n : Nat) : k.root n < k.publicKey.modulus := by
  obtain ⟨hmodulus, hp, hq⟩ := k.modulus_eq
  unfold root
  split
  · rw [Modular.pow_eq, ← hmodulus]
    exact Nat.mod_lt _ (Nat.mul_pos hp hq)
  · rw [← hmodulus]
    refine add_mul_lt ?_ (Nat.mod_lt _ hp)
    rw [Modular.pow_eq]
    exact Nat.mod_lt _ hq

end PrivateKey

/-- **RSA.** What the key `k` signs, `k.publicKey` verifies. -/
theorem verify_sign {k : PrivateKey} {digest : Digest} {value signature : Bytes}
    (h : k.sign digest value = .ok signature) :
    k.publicKey.verify digest value signature = true := by
  unfold PrivateKey.sign at h
  split at h
  · cases h
  · rename_i block hblock
    simp only [ite_error_eq_ok, Except.ok.injEq] at h
    obtain ⟨hraise, rfl⟩ := h
    exact PublicKey.verify_ofNatWidth hblock (k.root_lt _) hraise

end Pkix.Rsa
