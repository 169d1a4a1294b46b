import Pkix.Certificate.Tbs
import Pkix.Proofs.Key.Public
import Pkix.Proofs.Oid.Narrow

/-!
# What a certificate structure keeps

The fields of a new certificate go into a certificate structure and are taken out again. Two of them
may come out changed, and no error tells: a negative serial number, whose octets are taken for a
number without sign, and an identifier with an arc of more than 32 bits.

* `TbsCertificate.body_eq_ok_iff`: what a structure is made of.
* `TbsCertificate.Converted`: what is left of the fields.
* `TbsCertificate.exists_converted`: what comes out of a structure that was made.
* `TbsCertificate.conversion_keeps_what_fits`: and which of it is what went in.
* `TbsCertificate.conversion_changes`: a certificate of either kind that comes out changed.
-/

namespace Pkix

open Der

/-! ## Single fields -/

theorem EncodedTime.time_of_ofTime {t : Time} {e : EncodedTime} (h : EncodedTime.ofTime t = .ok e) :
    e.time = t.wholeSecond := by
  obtain ⟨-, rfl⟩ := by simpa only [EncodedTime.ofTime, ite_error_eq_ok, Except.ok.injEq] using h
  rfl

namespace SignatureAlgorithm

theorem ofAlgorithm_algorithm (s : SignatureAlgorithm) : ofAlgorithm s.algorithm = .ok s := by
  cases s <;> rfl

theorem readable_algorithm (s : SignatureAlgorithm) : s.algorithm.Readable := by
  unfold algorithm
  split
  · exact Algorithm.readable_withNull _
  · exact Algorithm.readable_plain _

theorem length_octets_le (s : SignatureAlgorithm) : s.algorithm.octets.length ≤ 64 := by
  cases s <;> decide +kernel

theorem decode_octets (s : SignatureAlgorithm) :
    decode s.algorithm.octets = .ok s.algorithm.value :=
  decode_eq_ok.mpr ⟨Nat.le_trans s.length_octets_le (by decide), s.algorithm.octets_value⟩

theorem ofValue_value (s : SignatureAlgorithm) :
    Algorithm.ofValue .default s.algorithm.value = .ok s.algorithm := by
  have hframed : s.algorithm.value.Framed := by
    apply Value.framed_of_length
    rw [Algorithm.octets_value]
    exact Nat.lt_of_le_of_lt s.length_octets_le (by decide)
  exact (Algorithm.ofValue_eq_ok hframed).mpr ⟨rfl, s.readable_algorithm⟩

end SignatureAlgorithm

/-! ## Extensions -/

namespace Extension

/-- `y` is the extension `x` after narrowing: the arcs of the identifier are kept modulo
`2 ^ 32`. -/
structure Narrowed (x y : Extension) : Prop where
  arcs : y.id.arcs = x.id.arcs.map (· % UInt32.size)
  critical : y.critical = x.critical
  value : y.value = x.value

variable {x y : Extension} {xs ys : List Extension}

theorem narrowed_of_ofExtension {e : EncodedExtension}
    (h : EncodedExtension.ofExtension x = .ok e) : x.Narrowed e.extension := by
  unfold EncodedExtension.ofExtension EncodedExtension.new? at h
  by_cases hvalid : (Oid.ofNarrow? x.id.content).isSome = true
  · rw [dif_pos hvalid] at h
    cases h
    exact ⟨Oid.arcs_of_ofNarrow? (Option.some_get hvalid).symm, rfl, rfl⟩
  · rw [dif_neg hvalid] at h
    cases h

/-- Narrowing keeps the extension `x` exactly where the arcs of its identifier fit 32 bits. -/
theorem Narrowed.eq_iff (h : x.Narrowed y) : y = x ↔ ∀ a ∈ x.id.arcs, a < UInt32.size := by
  rw [← Oid.eq_iff_of_arcs h.arcs]
  obtain ⟨id, critical, value⟩ := x
  obtain ⟨id', critical', value'⟩ := y
  obtain ⟨-, rfl, rfl⟩ := h
  simp only [mk.injEq, and_true]

theorem eq_iff_of_narrowed (h : List.Forall₂ Narrowed xs ys) :
    ys = xs ↔ ∀ x ∈ xs, ∀ a ∈ x.id.arcs, a < UInt32.size := by
  induction h with
  | nil => simp
  | cons hx _ ih => rw [List.cons.injEq, hx.eq_iff, ih, List.forall_mem_cons]

end Extension

namespace TbsCertificate

variable {t back : TbsCertificate} {b : Certificate.Body}

/-! ## The whole certificate -/

/-- The number that `serial` comes out as: a negative one has turned positive. -/
def convertedSerial (serial : Int) : Int :=
  if 0 ≤ serial then serial else serial + (1 <<< (8 * (BigEndian.ofInt serial).length) : Nat)

/-- What comes out of a certificate structure, `back`, for what went in, `t`, field by field. -/
structure Converted (t back : TbsCertificate) : Prop where
  serial : back.serial = convertedSerial t.serial
  algorithm : back.algorithm = t.algorithm
  issuer : back.issuer = t.issuer
  notBefore : back.notBefore = t.notBefore.wholeSecond
  notAfter : back.notAfter = t.notAfter.wholeSecond
  subject : back.subject = t.subject
  publicKey : back.publicKey = t.publicKey
  extensions : List.Forall₂ Extension.Narrowed t.extensions back.extensions

theorem encodedSerial_eq {serial n : Int} (h : encodedSerial serial = .ok n) :
    n = convertedSerial serial := by
  rw [encodedSerial, ite_error_eq_ok, Except.ok.injEq] at h
  rw [← h.2, BigEndian.toNat_ofInt, convertedSerial]

theorem convertedSerial_eq (serial : Int) :
    convertedSerial serial = BigEndian.toNat (BigEndian.ofInt serial) :=
  (BigEndian.toNat_ofInt serial).symm

theorem convertedSerial_pos {serial : Int} (h : serial ≠ 0) : 0 < convertedSerial serial := by
  have := BigEndian.toNat_ofInt_pos h
  rw [convertedSerial_eq]
  omega

/-- The number `serial` is kept exactly where it is not negative. -/
theorem convertedSerial_eq_iff {serial : Int} : convertedSerial serial = serial ↔ 0 ≤ serial := by
  have hpos := Nat.two_pow_pos (8 * (BigEndian.ofInt serial).length)
  rw [convertedSerial, Nat.one_shiftLeft]
  constructor
  · intro h
    split at h <;> omega
  · exact fun h => if_pos h

/-- `t.body` is made of the fields that can fail and of those that cannot. -/
theorem body_eq_ok_iff :
    t.body = .ok b ↔ ∃ extensions notBefore notAfter serial,
      t.extensions.mapM EncodedExtension.ofExtension = .ok extensions ∧
      EncodedTime.ofTime t.notBefore = .ok notBefore ∧
      EncodedTime.ofTime t.notAfter = .ok notAfter ∧ encodedSerial t.serial = .ok serial ∧
      b = { version := 2
            serial
            algorithm := t.algorithm.algorithm.octets
            issuer := t.issuer
            notBefore
            notAfter
            subject := t.subject
            publicKey := t.publicKey.octets
            issuerId := none
            subjectId := none
            extensions := if extensions = [] then none else some extensions } := by
  simp only [body, bind_eq_ok, pure_eq_ok, List.isEmpty_iff]
  constructor
  · rintro ⟨es, hes, before, hbefore, after, hafter, n, hn, rfl⟩
    exact ⟨es, before, after, n, hes, hbefore, hafter, hn, rfl⟩
  · rintro ⟨es, before, after, n, hes, hbefore, hafter, hn, rfl⟩
    exact ⟨es, hes, before, hbefore, after, hafter, n, hn, rfl⟩

/-- What the structure `b` holds is what the fields of `t` are made of. -/
theorem body_eq_ok (h : t.body = .ok b) :
    b.algorithm = t.algorithm.algorithm.octets ∧ b.serial = convertedSerial t.serial ∧
      b.issuer = t.issuer ∧ b.subject = t.subject ∧ b.publicKey = t.publicKey.octets ∧
      b.notBefore.time = t.notBefore.wholeSecond ∧ b.notAfter.time = t.notAfter.wholeSecond ∧
      List.Forall₂ Extension.Narrowed t.extensions
        ((b.extensions.getD []).map EncodedExtension.extension) := by
  obtain ⟨extensions, notBefore, notAfter, serial, hextensions, hbefore, hafter, hserial, rfl⟩ :=
    body_eq_ok_iff.mp h
  have hlist : (if extensions = [] then none else some extensions).getD [] = extensions := by
    cases extensions <;> rfl
  refine ⟨rfl, encodedSerial_eq hserial, rfl, rfl, rfl, EncodedTime.time_of_ofTime hbefore,
    EncodedTime.time_of_ofTime hafter, ?_⟩
  rw [hlist, List.forall₂_map_right_iff]
  exact (mapM_eq_ok.mp hextensions).imp fun _ _ => Extension.narrowed_of_ofExtension

/-- The fields of a structure `b` that was made are taken out again, unless the serial number is
zero. -/
theorem exists_converted (h : t.body = .ok b) (hserial : t.serial ≠ 0)
    (hkey : t.publicKey.Readable) : ∃ back, ofBody b = .ok back ∧ Converted t back := by
  obtain ⟨halgorithm, hnumber, hissuer, hsubject, hpublicKey, hbefore, hafter, hextensions⟩ :=
    body_eq_ok h
  have hpos : ¬convertedSerial t.serial ≤ 0 := Int.not_le.mpr (convertedSerial_pos hserial)
  refine ⟨{ t with
    serial := convertedSerial t.serial
    notBefore := t.notBefore.wholeSecond
    notAfter := t.notAfter.wholeSecond
    extensions := (b.extensions.getD []).map EncodedExtension.extension },
    ?_, ⟨rfl, rfl, rfl, rfl, rfl, rfl, rfl, hextensions⟩⟩
  simp only [ofBody, halgorithm, SignatureAlgorithm.decode_octets, SignatureAlgorithm.ofValue_value,
    SignatureAlgorithm.ofAlgorithm_algorithm, hnumber, if_neg hpos, hissuer, hsubject, hpublicKey,
    PublicKey.ofOctets_octets_eq_ok.mpr hkey, hbefore, hafter, bind, Except.bind, pure, Except.pure]

/-- A serial number of zero is refused by `ofBody`. -/
theorem ofBody_of_zero (h : t.body = .ok b) (hserial : t.serial = 0) :
    ofBody b = .error (.certificate (.serialNotPositive 0)) := by
  obtain ⟨halgorithm, hnumber, -⟩ := body_eq_ok h
  rw [hserial] at hnumber
  have hzero : b.serial = 0 := hnumber
  simp only [ofBody, halgorithm, SignatureAlgorithm.decode_octets, SignatureAlgorithm.ofValue_value,
    SignatureAlgorithm.ofAlgorithm_algorithm, hzero, Int.le_refl, if_true, bind, Except.bind]

/-- **A certificate structure keeps what fits.** Where the fields of `t` went into a structure `b`,
a serial number of zero is refused when they are taken out. Otherwise they are taken out as `back`,
if the key is one that readers take (`Readable`), and but for two of them they are what went in, the
bounds of the validity to the whole second. The serial number is the same exactly where it is
positive: a negative one comes out with 256 to the number of its octets added. The extensions are
the same, in their order, exactly where the arcs of their identifiers fit 32 bits: larger ones lose
their upper bits. -/
theorem conversion_keeps_what_fits (h : t.body = .ok b) :
    (t.serial = 0 → ofBody b = .error (.certificate (.serialNotPositive 0))) ∧
    (t.serial ≠ 0 → t.publicKey.Readable → ∃ back, ofBody b = .ok back ∧
      back.algorithm = t.algorithm ∧ back.issuer = t.issuer ∧ back.subject = t.subject ∧
      back.publicKey = t.publicKey ∧ back.notBefore = t.notBefore.wholeSecond ∧
      back.notAfter = t.notAfter.wholeSecond ∧
      back.serial = convertedSerial t.serial ∧ (back.serial = t.serial ↔ 0 < t.serial) ∧
      List.Forall₂ Extension.Narrowed t.extensions back.extensions ∧
      (back.extensions = t.extensions ↔
        ∀ x ∈ t.extensions, ∀ a ∈ x.id.arcs, a < UInt32.size)) := by
  refine ⟨ofBody_of_zero h, fun hserial hkey => ?_⟩
  obtain ⟨back, hback, hfields⟩ := exists_converted h hserial hkey
  refine ⟨back, hback, hfields.algorithm, hfields.issuer, hfields.subject, hfields.publicKey,
    hfields.notBefore, hfields.notAfter, hfields.serial, ?_, hfields.extensions,
    Extension.eq_iff_of_narrowed hfields.extensions⟩
  rw [hfields.serial, convertedSerial_eq_iff]
  omega

/-! ## Certificates that come out changed -/

/-- The generator of P-256 as a key of `sample`. -/
def sampleKey : PublicKey :=
  .ecdsa ⟨.p256, 0x6b17d1f2e12c4247f8bce6e563a440f277037d812deb33a0f4a13945d898c296,
    0x4fe342e2fe1a7f9b8ee7eb4a7c0f9e162bce33576b315ececbb6406837bf51f5, by decide +kernel⟩

/-- A certificate for the first second of 2024 with the given number `serial` and `extensions`. -/
def sample (serial : Int) (extensions : List Extension) : TbsCertificate where
  serial
  algorithm := .sha256WithEcdsa
  issuer := ⟨[]⟩
  notBefore := .utc 1704067200
  notAfter := .utc 1704067200
  subject := ⟨[]⟩
  publicKey := sampleKey
  extensions

/-- An extension whose identifier has an arc of 33 bits, `4294967296`. -/
def wideExtension : Extension := ⟨⟨[1, 2, 4294967296], by decide⟩, true, [5, 0]⟩

theorem exists_body_sample : ∃ b, (sample (-1) [wideExtension]).body = .ok b := by
  have hsome : (sample (-1) [wideExtension]).body.toOption.isSome = true := by decide +kernel
  obtain ⟨b, hb⟩ := Option.isSome_iff_exists.mp hsome
  exact ⟨b, toOption_eq_some.mp hb⟩

/-- In `sample (-1) [wideExtension]` the serial number -1 comes out as 255, and the arc of 33 bits
as zero. -/
theorem conversion_changes :
    ∃ b back y, (sample (-1) [wideExtension]).body = .ok b ∧ ofBody b = .ok back ∧
      back.serial = 255 ∧ back.extensions = [y] ∧ y.id.arcs = [1, 2, 0] := by
  obtain ⟨b, hb⟩ := exists_body_sample
  obtain ⟨back, hback, hfields⟩ := exists_converted hb (by decide) trivial
  have hserial : convertedSerial (-1) = 255 := by decide +kernel
  obtain ⟨y, ys, hy, hys, heq⟩ := List.forall₂_cons_left_iff.mp hfields.extensions
  obtain rfl := List.forall₂_nil_left_iff.mp hys
  exact ⟨b, back, y, hb, hback, hfields.serial.trans hserial, heq, hy.arcs⟩

/-- `conversion_keeps_what_fits` there: all other fields of that certificate are kept. -/
theorem exists_conversion_keeps_sample :
    ∃ b back, (sample (-1) [wideExtension]).body = .ok b ∧ ofBody b = .ok back ∧
      back.publicKey = sampleKey ∧ back.notBefore = .utc 1704067200 ∧ back.serial ≠ -1 ∧
      back.extensions ≠ [wideExtension] := by
  obtain ⟨b, hb⟩ := exists_body_sample
  obtain ⟨back, hback, -, -, -, hkey, hbefore, -, -, hserial, -, hextensions⟩ :=
    (conversion_keeps_what_fits hb).2 (by decide) trivial
  refine ⟨b, back, hb, hback, hkey, hbefore, mt hserial.mp (by decide), fun h => ?_⟩
  have hfits := hextensions.mp h wideExtension List.mem_cons_self 4294967296
  exact absurd (hfits (by decide)) (by decide)

end TbsCertificate

end Pkix
