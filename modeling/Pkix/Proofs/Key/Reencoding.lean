import Pkix.Proofs.Key.Public

/-!
# Public keys survive their encoding

Readers take several spellings of some keys, of which one is written: compressed points, RSA
algorithms with any parameters, DSA numbers without the octet that holds the sign. What a reader
makes of any of them is a key in its own range, so writing it and reading it again changes nothing.

* `DsaParameters.ofValue_value_eq_ok`: parameters that are not negative are read back.
* `PublicKey.readable_of_ofOctets`: keys that are read are in the range of readers.
* `PublicKey.ofOctets_eq_ok_dsa`: the octets that are read as a DSA key.
* `PublicKey.reencoding_exact`: all keys that are read are read back.
* `PublicKey.long_prime_not_read`: parameters with a number that is too long are not.
-/

namespace Pkix

open Der

/-! ## Lengths beyond those that are read -/

/-- Lengths `m` and `n` can be told from what follows while the octets of the number can be
counted. -/
theorem Der.Length.octets_append_inj_of_count {m n : Nat} {r r' : Bytes}
    (hm : (BigEndian.ofNat m).length < 128) (hn : (BigEndian.ofNat n).length < 128)
    (h : octets m ++ r = octets n ++ r') : m = n ∧ r = r' := by
  have htoNat {k : Nat} (hk : k < 256) : (UInt8.ofNat k).toNat = k := UInt8.toNat_ofNat_of_lt' hk
  have hfirst {j k : Nat} (hj : j < 256) (hk : k < 256) (heq : UInt8.ofNat j = UInt8.ofNat k) :
      j = k := by
    rw [← htoNat hj, ← htoNat hk, heq]
  unfold octets at h
  split at h <;> split at h
  · obtain ⟨hhead, htail⟩ := List.cons.inj h
    exact ⟨hfirst (by omega) (by omega) hhead, htail⟩
  · have := hfirst (by omega) (by omega) (List.cons.inj h).1
    omega
  · have := hfirst (by omega) (by omega) (List.cons.inj h).1
    omega
  · obtain ⟨hhead, htail⟩ := List.cons.inj h
    have hcount := hfirst (by omega) (by omega) hhead
    obtain ⟨hdigits, hrest⟩ := List.append_inj htail (by omega)
    exact ⟨by rw [← BigEndian.toNat_ofNat m, hdigits, BigEndian.toNat_ofNat], hrest⟩

/-- So can contents, `a` and `b`, even if they are too long to be read. -/
theorem Der.Write.element_append_inj_of_count {tag : UInt8} {a b r r' : Bytes}
    (ha : (BigEndian.ofNat a.length).length < 128) (hb : (BigEndian.ofNat b.length).length < 128)
    (h : element tag a ++ r = element tag b ++ r') : a = b ∧ r = r' := by
  simp only [element, List.cons_append, List.append_assoc, List.cons.injEq, true_and] at h
  obtain ⟨hlen, hcontent⟩ := Length.octets_append_inj_of_count ha hb h
  exact List.append_inj hcontent hlen

/-! ## Parameters -/

namespace DsaParameters

theorem nonneg_of_ofValue {v : Value} {d : DsaParameters} (h : ofValue v = .ok d) :
    0 ≤ d.p ∧ 0 ≤ d.q ∧ 0 ≤ d.g := by
  obtain ⟨p, q, g, -, -, rfl⟩ := ofValue_eq_ok.mp h
  exact ⟨Int.natCast_nonneg _, Int.natCast_nonneg _, Int.natCast_nonneg _⟩

/-- A value that is read, of `p'`, `q'` and `g'`, has the contents of no other value. -/
theorem valueOf_inj {p q g p' q' g' : Bytes} (hlen : ∀ b ∈ [p', q', g'], b.length < UInt32.size)
    (h : valueOf p q g = valueOf p' q' g') : p = p' ∧ q = q' ∧ g = g' := by
  have hsize : UInt32.size = 2 ^ 32 := rfl
  have hcontent : Write.element Tag.integer p ++ (Write.element Tag.integer q ++
      (Write.element Tag.integer g ++ [])) = Write.element Tag.integer p' ++
      (Write.element Tag.integer q' ++ (Write.element Tag.integer g' ++ [])) := by
    simpa [valueOf, Value.ofOctet] using h
  -- the length of all three bounds that of each, so the octets of each length can be counted
  have hcount {b : Bytes} (hb : b.length < 1 <<< (8 * 5)) :
      (BigEndian.ofNat b.length).length < 128 :=
    Nat.lt_of_le_of_lt (BigEndian.length_ofNat_le_iff.mpr hb) (by decide)
  have hle {b : Bytes} (hb : b ∈ [p', q', g']) :
      (Write.element Tag.integer b).length < 2 ^ 32 + 8 := by
    have hb := hlen b hb
    have hoctets : (Length.octets b.length).length ≤ (Length.octets (2 ^ 32)).length :=
      Length.length_octets_le (Nat.le_of_lt hb)
    have hsix : (Length.octets (2 ^ 32)).length ≤ 6 := by decide +kernel
    rw [Write.length_element]
    omega
  have htotal := congrArg List.length hcontent
  simp only [List.length_append, List.length_nil, Nat.add_zero] at htotal
  have hp' := hle (b := p') (by simp)
  have hq' := hle (b := q') (by simp)
  have hg' := hle (b := g') (by simp)
  have hmax : (1 : Nat) <<< (8 * 5) = 2 ^ 40 := by decide
  have hshort {b : Bytes} (hb : (Write.element Tag.integer b).length < 2 ^ 40) :
      (BigEndian.ofNat b.length).length < 128 :=
    hcount (hmax ▸ Nat.lt_of_le_of_lt (Write.length_le_element Tag.integer b) hb)
  obtain ⟨hp, hcontent⟩ := Write.element_append_inj_of_count (hshort (by omega))
    (hshort (by omega)) hcontent
  obtain ⟨hq, hcontent⟩ := Write.element_append_inj_of_count (hshort (by omega))
    (hshort (by omega)) hcontent
  obtain ⟨hg, -⟩ := Write.element_append_inj_of_count (hshort (by omega))
    (hshort (by omega)) hcontent
  exact ⟨hp, hq, hg⟩

/-- Parameters `d` are read back if they are not negative and their lengths can be read at all. -/
theorem ofValue_value_eq_ok {d : DsaParameters} :
    ofValue d.value = .ok d ↔
      (0 ≤ d.p ∧ 0 ≤ d.q ∧ 0 ≤ d.g) ∧
        ∀ n ∈ [d.p, d.q, d.g], (BigEndian.ofInt n).length < UInt32.size := by
  constructor
  · intro h
    refine ⟨nonneg_of_ofValue h, ?_⟩
    obtain ⟨p, q, g, hv, hread, -⟩ := ofValue_eq_ok.mp h
    obtain ⟨rfl, rfl, rfl⟩ := valueOf_inj (fun b hb => (hread b hb).2) (d.value_eq.symm.trans hv)
    simpa using fun b hb => (hread b hb).2
  · rintro ⟨⟨hp, hq, hg⟩, hlen⟩
    refine ofValue_eq_ok.mpr ⟨_, _, _, d.value_eq, ?_, ?_⟩
    · simpa [BigEndian.ofInt_ne_nil] using hlen
    · rw [BigEndian.toNat_ofInt_of_nonneg hp, BigEndian.toNat_ofInt_of_nonneg hq,
        BigEndian.toNat_ofInt_of_nonneg hg]

/-- Parameters with the prime `0x01` and `count` zero octets after it. -/
def ofZeros (count : Nat) : DsaParameters :=
  ⟨BigEndian.toInt (0x01 :: List.replicate count 0), 1, 1⟩

theorem ofInt_p_ofZeros (count : Nat) :
    BigEndian.ofInt (ofZeros count).p = 0x01 :: List.replicate count 0 := by
  have hminimal : BigEndian.isMinimal (0x01 :: List.replicate count 0) = true :=
    BigEndian.isMinimal_of_ne (by decide) (by decide) _
  rw [ofZeros, BigEndian.ofInt_toInt hminimal]

theorem nonneg_ofZeros (count : Nat) :
    0 ≤ (ofZeros count).p ∧ 0 ≤ (ofZeros count).q ∧ 0 ≤ (ofZeros count).g := by
  refine ⟨?_, Int.zero_le_ofNat 1, Int.zero_le_ofNat 1⟩
  rw [ofZeros, BigEndian.toInt, if_pos (by decide)]
  exact Int.natCast_nonneg _

theorem ofValue_value_ofZeros_ne (count : Nat) (h : UInt32.size ≤ count) :
    ofValue (ofZeros count).value ≠ .ok (ofZeros count) := by
  intro hread
  have hp : (BigEndian.ofInt (ofZeros count).p).length < UInt32.size :=
    (ofValue_value_eq_ok.mp hread).2 _ List.mem_cons_self
  rw [ofInt_p_ofZeros, List.length_cons, List.length_replicate] at hp
  omega

theorem lt_length_octets_ofZeros (count : Nat) : count < (ofZeros count).value.octets.length := by
  rw [value, Value.octets_ofOctet (by decide), Write.integer, ofInt_p_ofZeros]
  simp only [Write.element, List.length_cons, List.length_append, List.length_replicate]
  omega

end DsaParameters

/-! ## Keys -/

namespace PublicKey

theorem exists_of_readRsa {bits : Bytes} {k : PublicKey} (h : readRsa bits = .ok k) :
    ∃ r, k = rsa r ∧ r.modulus < 1 <<< 4096 := by
  unfold readRsa at h
  dsimp only at h
  split at h
  · rename_i modulus exponent _
    obtain ⟨r, hr, hk⟩ := bind_eq_ok.mp h
    cases hk
    refine ⟨r, rfl, ?_⟩
    unfold Rsa.PublicKey.new Rsa.PublicKey.new? at hr
    by_cases hvalid : Rsa.PublicKey.wellFormed modulus exponent = true
    · simp only [dif_pos hvalid, ite_error_eq_ok, Except.ok.injEq] at hr
      obtain ⟨hlt, rfl⟩ := hr
      exact hlt
    · simp [dif_neg hvalid] at hr
  · cases h

theorem exists_of_readEcdsa {parameters : Option Value} {bits : Bytes} {k : PublicKey}
    (h : readEcdsa parameters bits = .ok k) : ∃ e, k = ecdsa e := by
  unfold readEcdsa at h
  split at h
  · cases h
  · obtain ⟨id, -, h⟩ := bind_eq_ok.mp h
    split at h
    · cases h
    · split at h
      · cases h
        exact ⟨_, rfl⟩
      · cases h

theorem exists_of_readEd25519 {bits : Bytes} {k : PublicKey} (h : readEd25519 bits = .ok k) :
    ∃ e, k = ed25519 e := by
  unfold readEd25519 at h
  split at h
  · cases h
  · split at h
    · cases h
      exact ⟨_, rfl⟩
    · cases h

/-- What `read` makes of the algorithm `a` and the octets `bits`, kind by kind. -/
theorem read_cases {a : Algorithm} {bits : Bytes} {k : PublicKey} (h : read a bits = .ok k) :
    (∃ r, k = rsa r ∧ r.modulus < 1 <<< 4096) ∨ (∃ e, k = ecdsa e) ∨ (∃ e, k = ed25519 e) ∨
      ∃ v d y, a = ⟨Oid.dsa, some v⟩ ∧ DsaParameters.ofValue v = .ok d ∧
        bits = Write.integer y ∧ k = dsa d y := by
  have hall := h
  unfold read at h
  split at h
  · exact .inl (exists_of_readRsa h)
  split at h
  · exact .inr (.inl (exists_of_readEcdsa h))
  split at h
  · exact .inr (.inr (.inl (exists_of_readEd25519 h)))
  split at h
  · rename_i hid
    obtain ⟨d, hd, -⟩ := bind_eq_ok.mp h
    obtain ⟨id, parameters⟩ := a
    cases (show id = Oid.dsa from hid)
    cases parameters with
    | none => exact absurd hd (by simp [DsaParameters.ofAlgorithm])
    | some v =>
      obtain ⟨-, d, y, hd, hbits, hk⟩ := read_dsa_eq_ok.mp hall
      exact .inr (.inr (.inr ⟨v, d, y, rfl, hd, hbits, hk⟩))
  · cases h

/-- A key `k` that is read is in the range of readers, if its encoding is within the limit. -/
theorem readable_of_ofOctets {b : Bytes} {k : PublicKey} (h : ofOctets b = .ok k)
    (hlen : k.octets.length ≤ Limits.default.maxInput) : k.Readable := by
  obtain ⟨-, a, bits, -, -, hread⟩ := ofOctets_eq_ok.mp h
  obtain ⟨r, rfl, hlt⟩ | ⟨e, rfl⟩ | ⟨e, rfl⟩ | ⟨v, d, y, -, hd, -, rfl⟩ := read_cases hread
  · exact hlt
  · trivial
  · trivial
  · obtain ⟨hp, hq, hg⟩ := DsaParameters.nonneg_of_ofValue hd
    exact ⟨hp, hq, hg, hlen⟩

/-- A DSA key whose parameters are INTEGERs with the contents `p`, `q` and `g`. -/
def dsaOctets (p q g : Bytes) (y : Int) : Bytes :=
  octetsOf ⟨Oid.dsa, some (DsaParameters.valueOf p q g)⟩ (Write.integer y)

/-- DSA keys are read with all contents of their parameters, `p`, `q` and `g`. -/
theorem ofOctets_eq_ok_dsa {b : Bytes} {d : DsaParameters} {y : Int} :
    ofOctets b = .ok (dsa d y) ↔
      b.length ≤ Limits.default.maxInput ∧
        ∃ p q g, b = dsaOctets p q g y ∧ (∀ c ∈ [p, q, g], c ≠ []) ∧
          d = ⟨BigEndian.toNat p, BigEndian.toNat q, BigEndian.toNat g⟩ := by
  rw [ofOctets_eq_ok]
  refine and_congr_right fun hlen => ?_
  constructor
  · rintro ⟨a, bits, rfl, -, hread⟩
    obtain ⟨_, hk, -⟩ | ⟨_, hk⟩ | ⟨_, hk⟩ | ⟨v, d', y', rfl, hd, rfl, hk⟩ := read_cases hread <;>
      cases hk
    obtain ⟨p, q, g, rfl, hcontents, rfl⟩ := DsaParameters.ofValue_eq_ok.mp hd
    exact ⟨p, q, g, rfl, fun c hc => (hcontents c hc).1, rfl⟩
  · rintro ⟨p, q, g, rfl, hne, rfl⟩
    have hframed := framed_of_octetsOf hlen
    have hcontents : ∀ c ∈ [p, q, g], c ≠ [] ∧ c.length < UInt32.size := by
      refine fun c hc => ⟨hne c hc, Nat.lt_of_le_of_lt ?_ hframed⟩
      have hle := Write.length_le_element Tag.integer c
      simp only [DsaParameters.valueOf, Value.content_ofOctet, List.length_append]
      simp only [List.mem_cons, List.not_mem_nil, or_false] at hc
      obtain rfl | rfl | rfl := hc <;> omega
    have hparts := length_parts_le ⟨Oid.dsa, some (DsaParameters.valueOf p q g)⟩ (Write.integer y)
    have hbits : (Write.integer y).length ≤ Limits.default.maxInput :=
      Nat.le_trans (Nat.le_trans (Nat.le_add_left _ _) hparts) hlen
    refine ⟨_, _, rfl, ?_, read_dsa_eq_ok.mpr
      ⟨hbits, _, y, DsaParameters.ofValue_eq_ok.mpr ⟨p, q, g, rfl, hcontents, rfl⟩, rfl, rfl⟩⟩
    intro v hv hnull
    cases hv
    cases hnull

/-- **Keys survive their encoding.** A key `k` that is read is read again from its own encoding, if
that is within the limit, and its encoding stays as it is. DSA keys are read from INTEGERs with any
contents `p`, `q` and `g` at all, as magnitudes, so no parameter that is read is negative; and
parameters `d` that are not negative are read back, whatever they are, unless an INTEGER is too long
for any reader. -/
theorem reencoding_exact :
    (∀ b k, ofOctets b = .ok k → k.octets.length ≤ Limits.default.maxInput →
      ofOctets k.octets = .ok k ∧ (ofOctets k.octets).map octets = .ok k.octets) ∧
    (∀ b d y, ofOctets b = .ok (dsa d y) ↔
      b.length ≤ Limits.default.maxInput ∧
        ∃ p q g, b = dsaOctets p q g y ∧ (∀ c ∈ [p, q, g], c ≠ []) ∧
          d = ⟨BigEndian.toNat p, BigEndian.toNat q, BigEndian.toNat g⟩) ∧
    (∀ v d, DsaParameters.ofValue v = .ok d → 0 ≤ d.p ∧ 0 ≤ d.q ∧ 0 ≤ d.g) ∧
    ∀ d, DsaParameters.ofValue d.value = .ok d ↔
      (0 ≤ d.p ∧ 0 ≤ d.q ∧ 0 ≤ d.g) ∧
        ∀ n ∈ [d.p, d.q, d.g], (BigEndian.ofInt n).length < UInt32.size := by
  refine ⟨fun b k h hlen => ?_, fun _ _ _ => ofOctets_eq_ok_dsa,
    fun _ _ => DsaParameters.nonneg_of_ofValue, fun _ => DsaParameters.ofValue_value_eq_ok⟩
  have hagain := ofOctets_octets_eq_ok.mpr (readable_of_ofOctets h hlen)
  exact ⟨hagain, by rw [hagain]; rfl⟩

/-- `reencoding_exact` at a DSA key whose prime 151 stands there without the octet that holds its
sign. -/
theorem exists_reencoding_exact_unsigned :
    ∃ b k, ofOctets b = .ok k ∧ k.octets ≠ b ∧ ofOctets k.octets = .ok k := by
  obtain ⟨hagain, hdsa, -⟩ := reencoding_exact
  have hread : ofOctets (dsaOctets [0x97] [0x05] [0x20] 0x80) = .ok (dsa ⟨151, 5, 32⟩ 0x80) :=
    (hdsa _ _ _).mpr ⟨by decide +kernel, [0x97], [0x05], [0x20], rfl, by decide, by decide⟩
  exact ⟨_, _, hread, by decide +kernel, (hagain _ _ hread (by decide +kernel)).1⟩

/-- Not all parameters that are not negative are read back: the prime of `ofZeros UInt32.size`,
which has `2 ^ 32` octets and one more, has no length that is read. From `2 ^ 26` octets on
parameters are over the limit on inputs, so `decode` does not take them. -/
theorem long_prime_not_read :
    (0 ≤ (DsaParameters.ofZeros UInt32.size).p ∧ 0 ≤ (DsaParameters.ofZeros UInt32.size).q ∧
        0 ≤ (DsaParameters.ofZeros UInt32.size).g) ∧
      DsaParameters.ofValue (DsaParameters.ofZeros UInt32.size).value ≠
        .ok (DsaParameters.ofZeros UInt32.size) ∧
      decode (DsaParameters.ofZeros Limits.default.maxInput).value.octets =
        .error (.malformed (.inputTooLong
          (DsaParameters.ofZeros Limits.default.maxInput).value.octets.length
          Limits.default.maxInput)) :=
  ⟨DsaParameters.nonneg_ofZeros _, DsaParameters.ofValue_value_ofZeros_ne _ (Nat.le_refl _),
    decode_of_maxInput_lt (DsaParameters.lt_length_octets_ofZeros _)⟩

end PublicKey

end Pkix
