import Pkix.Proofs.Algorithm
import Pkix.Proofs.Der.Reader

/-!
# Public keys are read back

* `PublicKey.Readable`: the rules that readers of keys add to those that the keys carry.
* `DsaParameters.ofValue_eq_ok`, `PublicKey.ofOctets_eq_ok`: the octets that are read as parameters
  and as keys.
* `PublicKey.read_bits_eq_ok`: and it makes of them the key that they are of.
* `PublicKey.ofOctets_octets_eq_ok`: so the readable keys are those that are read back.
-/

namespace Pkix

open Der

/-! ## The key proper -/

namespace Rsa.PublicKey

theorem new_eq_ok (k : PublicKey) :
    new k.modulus k.exponent = .ok k ↔ k.modulus < 1 <<< 4096 := by
  simp only [new, new?, dif_pos k.valid, ite_error_eq_ok, and_true]

end Rsa.PublicKey

theorem Der.Reader.natural_ofNat (n : Nat) :
    Reader.natural (Value.ofOctet Tag.integer (BigEndian.ofInt n)) = some n := by
  have hread : (Value.ofOctet Tag.integer (BigEndian.ofInt n)).integer = .ok (n : Int) :=
    Value.integer_eq_ok.mpr rfl
  simp [Reader.natural, Reader.integer, hread, Except.toOption]

namespace Ecdsa.PublicKey

theorem lt_prime (k : PublicKey) : k.x < k.curve.prime ∧ k.y < k.curve.prime := by
  have h := k.valid
  simp only [Curve.contains, Bool.and_eq_true, decide_eq_true_eq] at h
  exact h.1

theorem prime_lt (curve : Curve) : curve.prime < 1 <<< (8 * curve.size) := by
  cases curve <;> decide

theorem ofOctets?_uncompressed (k : PublicKey) : ofOctets? k.curve k.uncompressed = some k := by
  obtain ⟨hx, hy⟩ := k.lt_prime
  have hprime := prime_lt k.curve
  have hread {n : Nat} (hn : n < k.curve.prime) :
      BigEndian.toNat (BigEndian.ofNatWidth k.curve.size n) = n :=
    BigEndian.toNat_ofNatWidth (Nat.lt_trans hn hprime)
  have hlen (n : Nat) : (BigEndian.ofNatWidth k.curve.size n).length = k.curve.size :=
    BigEndian.length_ofNatWidth _ n
  have hform : (0x04 : UInt8) = 0x04 ∧ (BigEndian.ofNatWidth k.curve.size k.x ++
      BigEndian.ofNatWidth k.curve.size k.y).length = 2 * k.curve.size := by
    rw [List.length_append, hlen, hlen]
    exact ⟨rfl, by omega⟩
  rw [uncompressed, ofOctets?]
  dsimp only
  rw [if_pos hform, List.take_left' (hlen k.x), List.drop_left' (hlen k.x), hread hx, hread hy,
    new?, dif_pos k.valid]

end Ecdsa.PublicKey

theorem Ed25519.PublicKey.ofOctets?_octets (k : PublicKey) : ofOctets? k.octets = some k := by
  rw [ofOctets?, dif_pos k.valid]

theorem Ed25519.PublicKey.length_octets (k : PublicKey) : k.octets.length = 32 := by
  have h := k.valid
  unfold Point.ofOctets? at h
  simp only at h
  split at h
  · cases h
  · rename_i hlen
    exact Decidable.not_not.mp hlen

theorem Der.Value.magnitude_eq_ok {v : Value} {n : Nat} :
    v.magnitude = .ok n ↔
      v = ofOctet Tag.integer v.content ∧ v.content ≠ [] ∧ n = BigEndian.toNat v.content := by
  simp only [magnitude, bind_eq_ok, Value.require_eq_ok, error_ite_eq_ok, pure_eq_ok]
  exact ⟨fun ⟨_, hv, hne, hn⟩ => ⟨hv, hne, hn.symm⟩, fun ⟨hv, hne, hn⟩ => ⟨(), hv, hne, hn.symm⟩⟩

namespace DsaParameters

/-- The value of three INTEGERs with the contents `p`, `q` and `g`, which need not be those of
numbers. -/
def valueOf (p q g : Bytes) : Value :=
  Value.ofOctet Tag.sequence
    (Write.element Tag.integer p ++ Write.element Tag.integer q ++ Write.element Tag.integer g)

theorem value_eq (d : DsaParameters) :
    d.value = valueOf (BigEndian.ofInt d.p) (BigEndian.ofInt d.q) (BigEndian.ofInt d.g) := rfl

/-- **DSA parameters.** Any three INTEGERs with a content, `p`, `q` and `g`, are read, as
magnitudes. -/
theorem ofValue_eq_ok {v : Value} {d : DsaParameters} :
    ofValue v = .ok d ↔
      ∃ p q g, v = valueOf p q g ∧ (∀ b ∈ [p, q, g], b ≠ [] ∧ b.length < UInt32.size) ∧
        d = ⟨BigEndian.toNat p, BigEndian.toNat q, BigEndian.toNat g⟩ := by
  simp only [ofValue, ite_error_eq_ok, bind_eq_ok, pure_eq_ok, Prod.exists, Value.is_iff,
    Cursor.expect_eq_ok (show Value.Short Tag.integer by decide), Cursor.finish_eq_ok,
    Value.cursor, Value.magnitude_eq_ok, List.forall_mem_cons, List.not_mem_nil, false_implies,
    implies_true, and_true]
  constructor
  · rintro ⟨hv, p, c₁, ⟨-, hp, hp4⟩, q, c₂, ⟨-, hq, hq4⟩, g, c₃, ⟨-, hg, hg4⟩, -, hend,
      _, ⟨-, hpne, rfl⟩, _, ⟨-, hqne, rfl⟩, _, ⟨-, hgne, rfl⟩, rfl⟩
    refine ⟨p.content, q.content, g.content, ?_, ⟨⟨hpne, hp4⟩, ⟨hqne, hq4⟩, hgne, hg4⟩, rfl⟩
    rw [hv, ← Cursor.rest_ofBuffer v.content .default, hp.rest, hq.rest, hg.rest, hend]
    simp [valueOf]
  · rintro ⟨p, q, g, rfl, ⟨⟨hpne, hp4⟩, ⟨hqne, hq4⟩, hgne, hg4⟩, rfl⟩
    have hrest : (Cursor.ofBuffer (valueOf p q g).content .default).rest =
        Write.element Tag.integer p ++ (Write.element Tag.integer q ++
          (Write.element Tag.integer g ++ [])) := by
      simp [Cursor.rest_ofBuffer, valueOf, Value.content_ofOctet]
    obtain ⟨c₁, hp, hrest, -⟩ := Cursor.exists_step hrest
    obtain ⟨c₂, hq, hrest, -⟩ := Cursor.exists_step hrest
    obtain ⟨c₃, hg, hrest, -⟩ := Cursor.exists_step hrest
    exact ⟨rfl, Value.ofOctet Tag.integer p, c₁, ⟨rfl, hp, hp4⟩, Value.ofOctet Tag.integer q, c₂,
      ⟨rfl, hq, hq4⟩, Value.ofOctet Tag.integer g, c₃, ⟨rfl, hg, hg4⟩, (), hrest,
      _, ⟨rfl, hpne, rfl⟩, _, ⟨rfl, hqne, rfl⟩, _, ⟨rfl, hgne, rfl⟩, rfl⟩

/-- The parameters `d` are read without their sign. -/
theorem ofValue_value {d : DsaParameters} (hlen : d.value.content.length < UInt32.size) :
    ofValue d.value = .ok ⟨BigEndian.toNat (BigEndian.ofInt d.p),
      BigEndian.toNat (BigEndian.ofInt d.q), BigEndian.toNat (BigEndian.ofInt d.g)⟩ := by
  change (Write.integer d.p ++ Write.integer d.q ++ Write.integer d.g).length < _ at hlen
  rw [← List.append_nil (Write.integer d.g), List.append_assoc] at hlen
  obtain ⟨hp, htail⟩ := Write.length_lt_of_element_append hlen
  obtain ⟨hq, htail⟩ := Write.length_lt_of_element_append htail
  obtain ⟨hg, -⟩ := Write.length_lt_of_element_append htail
  refine ofValue_eq_ok.mpr ⟨_, _, _, d.value_eq, ?_, rfl⟩
  simp only [List.forall_mem_cons, List.not_mem_nil, false_implies, implies_true, and_true]
  exact ⟨⟨BigEndian.ofInt_ne_nil _, hp⟩, ⟨BigEndian.ofInt_ne_nil _, hq⟩, BigEndian.ofInt_ne_nil _,
    hg⟩

end DsaParameters

/-! ## Algorithm and key -/

namespace PublicKey

/-- A key is one that readers take: they bound the modulus of `rsa` keys and the length of any
encoding, and they read the parameters of `dsa` keys without a sign. -/
def Readable : PublicKey → Prop
  | rsa k => k.modulus < 1 <<< 4096
  | ecdsa _ | ed25519 _ => True
  | dsa d y => 0 ≤ d.p ∧ 0 ≤ d.q ∧ 0 ≤ d.g ∧ (dsa d y).octets.length ≤ Limits.default.maxInput

theorem readable_algorithm (k : PublicKey) : k.algorithm.Readable := by
  cases k with
  | rsa k => exact Algorithm.readable_withNull _
  | ed25519 k => exact Algorithm.readable_plain _
  | ecdsa k | dsa d y =>
    intro v hv hnull
    cases hv
    cases hnull

/-- The algorithm `a` and the octets of a key, `bits`, one after the other. -/
def octetsOf (a : Algorithm) (bits : Bytes) : Bytes :=
  Write.element Tag.sequence (a.octets ++ Write.wholeBits bits)

/-- An encoding is no shorter than the two parts in it, `a` and `bits`. -/
theorem length_parts_le (a : Algorithm) (bits : Bytes) :
    a.octets.length + bits.length ≤ (octetsOf a bits).length := by
  have hbits := Write.length_le_element Tag.bitString (0 :: bits)
  have hall := Write.length_le_element Tag.sequence (a.octets ++ Write.wholeBits bits)
  rw [List.length_cons] at hbits
  rw [List.length_append, Write.wholeBits] at hall
  exact Nat.le_trans (by omega) hall

/-- Parameters `v` in an encoding that readers take are framed. -/
theorem framed_of_octetsOf {id : Oid} {v : Value} {bits : Bytes}
    (hlen : (octetsOf ⟨id, some v⟩ bits).length ≤ Limits.default.maxInput) : v.Framed := by
  have hmax : Limits.default.maxInput < UInt32.size := by decide
  have hparts := length_parts_le ⟨id, some v⟩ bits
  have hle := Write.length_le_element Tag.sequence (Write.oid id ++ v.octets)
  rw [List.length_append] at hle
  change _ ≤ (Algorithm.octets ⟨id, some v⟩).length at hle
  exact Value.framed_of_length (by omega)

/-- Octets `b` are read as the key `k` exactly where they hold an algorithm `a` and what a reader
for it takes. -/
theorem ofOctets_eq_ok {b : Bytes} {k : PublicKey} :
    ofOctets b = .ok k ↔
      b.length ≤ Limits.default.maxInput ∧
        ∃ a bits, b = octetsOf a bits ∧ a.Readable ∧ read a bits = .ok k := by
  simp only [ofOctets, bind_eq_ok, decode_eq_ok, ofValue, ite_error_eq_ok, Value.is_iff,
    Prod.exists, Value.cursor, Algorithm.read_eq_ok,
    Cursor.expect_eq_ok (show Value.Short Tag.bitString by decide), Cursor.finish_eq_ok]
  constructor
  · rintro ⟨v, ⟨hlen, rfl⟩, hv, a, c₁, ⟨hfirst, -, ha⟩, w, c₂, ⟨hw, hsecond, -⟩, -, hend, bits,
      hbits, hread⟩
    refine ⟨hlen, a, bits, ?_, ha, hread⟩
    have hcontent : v.content = a.octets ++ Write.element Tag.bitString w.content := by
      rw [← Cursor.rest_ofBuffer v.content .default, hfirst.rest, hsecond.rest, hend,
        List.append_nil]
    have hwhole : w.content = 0 :: bits := by
      rw [Value.wholeBits_eq_ok.mp hbits]
      rfl
    rw [hv, Value.octets_ofOctet (by decide), hcontent, hwhole]
    rfl
  · rintro ⟨hlen, a, bits, rfl, ha, hread⟩
    have hcontent := Write.lt_size_of_element_le hlen
    rw [List.length_append, Algorithm.octets_eq, Write.wholeBits] at hcontent
    have halgorithm := Write.length_le_element Tag.sequence a.content
    have hbits := Write.length_le_element Tag.bitString (0 :: bits)
    have hrest : (Cursor.ofBuffer (a.octets ++ Write.wholeBits bits) .default).rest =
        a.octets ++ (Write.wholeBits bits ++ []) := by
      rw [List.append_nil, Cursor.rest_ofBuffer]
    obtain ⟨c₁, hfirst, hrest, -⟩ := Cursor.exists_step hrest
    obtain ⟨c₂, hsecond, hrest, -⟩ := Cursor.exists_step hrest
    exact ⟨Value.ofOctet Tag.sequence (a.octets ++ Write.wholeBits bits),
      ⟨hlen, Value.octets_ofOctet (by decide) _⟩, rfl, a, c₁, ⟨hfirst, by omega, ha⟩,
      Value.ofOctet Tag.bitString (0 :: bits), c₂,
      ⟨rfl, hsecond, show (0 :: bits).length < _ by omega⟩, (), hrest, bits,
      Value.wholeBits_eq_ok.mpr rfl, hread⟩

/-- The algorithm `a` and the key proper, `bits`, can be told from their octets. -/
theorem octetsOf_inj {a a' : Algorithm} {bits bits' : Bytes}
    (hlen : (octetsOf a bits).length < UInt32.size) (h : octetsOf a bits = octetsOf a' bits') :
    a = a' ∧ bits = bits' := by
  have hcontent := Write.content_of_element h
  have hshort := Nat.lt_of_le_of_lt (Write.length_le_element Tag.sequence _) hlen
  rw [Algorithm.octets_eq] at hcontent hshort
  rw [a'.octets_eq] at hcontent
  obtain ⟨ha, hbits⟩ := Write.element_append_inj_of_length (by decide) hshort hcontent
  have ha' := (Write.length_lt_of_element_append hshort).1
  exact ⟨Algorithm.content_inj ha' ha, (List.cons.inj (Write.content_of_element hbits)).2⟩

/-- The algorithm `a` and the key proper, `bits`, are read where they were written. -/
theorem ofOctets_octetsOf_eq_ok {a : Algorithm} {bits : Bytes} {k : PublicKey} (ha : a.Readable)
    (hlen : (octetsOf a bits).length ≤ Limits.default.maxInput) :
    ofOctets (octetsOf a bits) = .ok k ↔ read a bits = .ok k := by
  have hmax : Limits.default.maxInput < UInt32.size := by decide
  rw [ofOctets_eq_ok]
  constructor
  · rintro ⟨-, a', bits', h, -, hread⟩
    obtain ⟨rfl, rfl⟩ := octetsOf_inj (Nat.lt_of_le_of_lt hlen hmax) h
    exact hread
  · intro hread
    exact ⟨hlen, a, bits, rfl, ha, hread⟩

/-! Each kind of key is read by its own reader. -/

theorem read_bits_rsa {k : Rsa.PublicKey} (hlen : k.octets.length < UInt32.size) :
    read (rsa k).algorithm (rsa k).bits = (Rsa.PublicKey.new k.modulus k.exponent).map rsa := by
  have hcontent := Nat.lt_of_le_of_lt (Write.length_le_element Tag.sequence _) hlen
  obtain ⟨hmodulus, htail⟩ := Write.length_lt_of_element_append hcontent
  have hexponent := Nat.lt_of_le_of_lt (Write.length_le_element Tag.integer _) htail
  have hnext {n : Nat} {b : Bytes} (hn : (BigEndian.ofInt n).length < UInt32.size) :
      Reader.next Reader.natural (Write.integer n ++ b) = some (n, b) :=
    Reader.next_of_element (by decide) (by decide) hn (Reader.natural_ofNat n)
  have hnumbers : Reader.whole (Reader.next (Reader.sequence do
      return (← Reader.next Reader.natural, ← Reader.next Reader.natural))) k.octets =
        some (k.modulus, k.exponent) := by
    rw [Reader.whole_eq_some, Rsa.PublicKey.octets, ← List.append_nil (Write.element _ _)]
    refine Reader.next_of_element (by decide) (by decide) hcontent
      (Reader.sequence_eq_some.mpr ⟨Value.is_ofOctet _ _, ?_⟩)
    rw [Value.content_ofOctet, ← List.append_nil (Write.integer k.exponent)]
    exact Reader.bind_eq_some.mpr ⟨_, _, hnext hmodulus,
      Reader.bind_eq_some.mpr ⟨_, _, hnext hexponent, rfl⟩⟩
  have hread : read (rsa k).algorithm (rsa k).bits = readRsa k.octets := if_pos rfl
  rw [hread, readRsa, hnumbers]
  rfl

theorem read_bits_ecdsa (k : Ecdsa.PublicKey) :
    read (ecdsa k).algorithm (ecdsa k).bits = .ok (ecdsa k) := by
  have hread : read (ecdsa k).algorithm (ecdsa k).bits =
      readEcdsa (some (Value.ofOctet Tag.oid k.curve.oid.content)) k.uncompressed := by
    have hne : Oid.ecPublicKey ≠ Oid.rsaEncryption := by decide
    exact (if_neg hne).trans (if_pos rfl)
  have hoid : (Value.ofOctet Tag.oid k.curve.oid.content).oid = .ok k.curve.oid :=
    Value.oid_eq_ok.mpr rfl
  have hcurve : Curve.ofOid? k.curve.oid = some k.curve := by
    cases k.curve <;> decide
  simp only [hread, readEcdsa, hoid, hcurve, Ecdsa.PublicKey.ofOctets?_uncompressed, bind,
    Except.bind, pure, Except.pure]

theorem read_bits_ed25519 (k : Ed25519.PublicKey) :
    read (ed25519 k).algorithm (ed25519 k).bits = .ok (ed25519 k) := by
  have hread : read (ed25519 k).algorithm (ed25519 k).bits = readEd25519 k.octets := by
    have hrsa : Oid.ed25519 ≠ Oid.rsaEncryption := by decide
    have hec : Oid.ed25519 ≠ Oid.ecPublicKey := by decide
    exact (if_neg hrsa).trans ((if_neg hec).trans (if_pos rfl))
  rw [hread, readEd25519, if_neg (not_not_intro k.length_octets),
    Ed25519.PublicKey.ofOctets?_octets]

theorem read_dsa_eq_ok {v : Value} {bits : Bytes} {k : PublicKey} :
    read ⟨Oid.dsa, some v⟩ bits = .ok k ↔
      bits.length ≤ Limits.default.maxInput ∧
        ∃ d y, DsaParameters.ofValue v = .ok d ∧ bits = Write.integer y ∧ k = dsa d y := by
  have hread : read ⟨Oid.dsa, some v⟩ bits = do
      let parameters ← DsaParameters.ofAlgorithm ⟨Oid.dsa, some v⟩
      return dsa parameters (← (← decode bits).integer) := by
    have hrsa : Oid.dsa ≠ Oid.rsaEncryption := by decide
    have hec : Oid.dsa ≠ Oid.ecPublicKey := by decide
    have hed : Oid.dsa ≠ Oid.ed25519 := by decide
    exact (if_neg hrsa).trans ((if_neg hec).trans ((if_neg hed).trans (if_pos rfl)))
  have hparameters : DsaParameters.ofAlgorithm ⟨Oid.dsa, some v⟩ = DsaParameters.ofValue v :=
    if_neg (not_not_intro rfl)
  simp only [hread, hparameters, bind_eq_ok, decode_eq_ok, Value.integer_eq_ok, pure_eq_ok]
  constructor
  · rintro ⟨d, hd, w, ⟨hlen, rfl⟩, y, rfl, rfl⟩
    exact ⟨hlen, d, y, hd, Value.octets_ofOctet (by decide) _, rfl⟩
  · rintro ⟨hlen, d, y, hd, rfl, rfl⟩
    exact ⟨d, hd, _, ⟨hlen, Value.octets_ofOctet (by decide) _⟩, y, rfl, rfl⟩

theorem read_bits_dsa {d : DsaParameters} {y : Int}
    (hlen : (dsa d y).octets.length ≤ Limits.default.maxInput) :
    read (dsa d y).algorithm (dsa d y).bits =
      .ok (dsa ⟨BigEndian.toNat (BigEndian.ofInt d.p), BigEndian.toNat (BigEndian.ofInt d.q),
        BigEndian.toNat (BigEndian.ofInt d.g)⟩ y) := by
  have hparts := length_parts_le (dsa d y).algorithm (Write.integer y)
  have hbits : (Write.integer y).length ≤ Limits.default.maxInput :=
    Nat.le_trans (Nat.le_trans (Nat.le_add_left _ _) hparts) hlen
  exact read_dsa_eq_ok.mpr
    ⟨hbits, _, y, DsaParameters.ofValue_value (framed_of_octetsOf hlen), rfl, rfl⟩

/-! Keys of a bounded size have encodings of a bounded length. -/

theorem length_octets_le_of_parts {k : PublicKey} (halgorithm : k.algorithm.octets.length ≤ 64)
    (hbits : k.bits.length ≤ 2048) : k.octets.length ≤ Limits.default.maxInput := by
  have hmax : 4096 ≤ Limits.default.maxInput := by decide
  have hwhole : (Write.wholeBits k.bits).length ≤ (0 :: k.bits).length + 5 :=
    Write.length_element_le_add (by rw [List.length_cons]; omega)
  rw [List.length_cons] at hwhole
  have hall : k.octets.length ≤ (k.algorithm.octets ++ Write.wholeBits k.bits).length + 5 :=
    Write.length_element_le_add (by rw [List.length_append]; omega)
  rw [List.length_append] at hall
  omega

theorem length_integer_le {n : Nat} (h : n < 1 <<< 4096) : (Write.integer n).length ≤ 518 := by
  have hdigits : (BigEndian.ofNat n).length ≤ 512 := BigEndian.length_ofNat_le_iff.mpr h
  have hcontent := BigEndian.length_ofNonneg_le n
  have hall : (Write.integer n).length ≤ (BigEndian.ofInt n).length + 5 :=
    Write.length_element_le_add (Nat.lt_of_le_of_lt hcontent (by omega))
  exact Nat.le_trans hall (Nat.add_le_add_right (Nat.le_trans hcontent (by omega)) 5)

theorem length_octets_le {k : PublicKey} (h : k.Readable) :
    k.octets.length ≤ Limits.default.maxInput := by
  cases k with
  | rsa k =>
    have hexponent : k.exponent < k.modulus := by
      have hvalid := k.valid
      simp only [Rsa.PublicKey.wellFormed, Bool.and_eq_true, decide_eq_true_eq] at hvalid
      exact hvalid.1.1.1.1
    have hn := length_integer_le h
    have he := length_integer_le (Nat.lt_trans hexponent h)
    have hall : k.octets.length ≤
        (Write.integer k.modulus ++ Write.integer k.exponent).length + 5 :=
      Write.length_element_le_add (by rw [List.length_append]; omega)
    rw [List.length_append] at hall
    have halgorithm : (Algorithm.withNull Oid.rsaEncryption).octets.length ≤ 64 := by
      decide +kernel
    exact length_octets_le_of_parts halgorithm (Nat.le_trans hall (by omega))
  | ecdsa k =>
    refine length_octets_le_of_parts (k := ecdsa k) ?_ ?_
    · change (curveAlgorithm k.curve).octets.length ≤ 64
      cases k.curve <;> decide +kernel
    · change k.uncompressed.length ≤ 2048
      rw [Ecdsa.PublicKey.uncompressed, List.length_cons, List.length_append,
        BigEndian.length_ofNatWidth, BigEndian.length_ofNatWidth]
      cases k.curve <;> decide
  | ed25519 k =>
    have halgorithm : (Algorithm.plain Oid.ed25519).octets.length ≤ 64 := by decide +kernel
    refine length_octets_le_of_parts (k := ed25519 k) halgorithm ?_
    change k.octets.length ≤ 2048
    rw [k.length_octets]
    decide
  | dsa d y => exact h.2.2.2

/-- What is read of a key `k` in the range of its readers is `k`. -/
theorem read_bits_eq_ok {k : PublicKey} (hlen : k.octets.length ≤ Limits.default.maxInput) :
    read k.algorithm k.bits = .ok k ↔ k.Readable := by
  cases k with
  | rsa k =>
    have hparts : _ + k.octets.length ≤ (rsa k).octets.length :=
      length_parts_le (rsa k).algorithm (rsa k).bits
    have hmax : Limits.default.maxInput < UInt32.size := by decide
    have hbits : k.octets.length < UInt32.size := by omega
    rw [read_bits_rsa hbits, Readable, ← Rsa.PublicKey.new_eq_ok]
    cases Rsa.PublicKey.new k.modulus k.exponent <;> simp [Except.map]
  | ecdsa k => exact iff_of_true (read_bits_ecdsa k) trivial
  | ed25519 k => exact iff_of_true (read_bits_ed25519 k) trivial
  | dsa d y =>
    obtain ⟨p, q, g⟩ := d
    have hnonneg {n : Int} : (BigEndian.toNat (BigEndian.ofInt n) : Int) = n ↔ 0 ≤ n :=
      ⟨fun h => h ▸ Int.natCast_nonneg _, BigEndian.toNat_ofInt_of_nonneg⟩
    rw [read_bits_dsa hlen]
    simp only [Except.ok.injEq, dsa.injEq, DsaParameters.mk.injEq, hnonneg, and_true, Readable,
      hlen]

/-- **Public keys.** `k` is read back exactly where its numbers are in the range that readers
take. -/
theorem ofOctets_octets_eq_ok {k : PublicKey} : ofOctets k.octets = .ok k ↔ k.Readable := by
  constructor
  · intro h
    have hlen := (ofOctets_eq_ok.mp h).1
    exact (read_bits_eq_ok hlen).mp ((ofOctets_octetsOf_eq_ok k.readable_algorithm hlen).mp h)
  · intro h
    have hlen : (octetsOf k.algorithm k.bits).length ≤ _ := length_octets_le h
    exact (ofOctets_octetsOf_eq_ok k.readable_algorithm hlen).mpr ((read_bits_eq_ok hlen).mpr h)

end PublicKey

end Pkix
