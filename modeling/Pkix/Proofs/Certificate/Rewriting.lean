import Pkix.Proofs.Certificate.Conversion
import Pkix.Proofs.Key.Reencoding
import Pkix.Proofs.Oid.Rewriting

/-!
# Certificates that were read and are written again

A certificate structure that is read holds more than one that is written: serial numbers of 21
octets, identifiers whose shortest content is too short, and times that no UTCTime says. Where none
of these stands in the way, a certificate is written again and comes back unchanged.

* `TbsCertificate.exists_body_iff`: what can be written at all.
* `TbsCertificate.eq_of_converted`: what comes back unchanged.
* `TbsCertificate.rewriting_keeps`: both for what was read.
* `TbsCertificate.longSerial_not_rewritten`: a serial number that is read and not written.
-/

namespace Pkix

open Der

/-! ## Single fields -/

/-- `t` is a time that a UTCTime says. Times of certificate structures never lie before 1970. -/
def Time.InUtcTime (t : Time) : Prop := 0 ≤ t.seconds ∧ t.utcYear < 2050

instance (t : Time) : Decidable t.InUtcTime := inferInstanceAs (Decidable (_ ∧ _))

theorem EncodedTime.exists_ofTime_iff {t : Time} :
    (∃ e, EncodedTime.ofTime t = .ok e) ↔ t.InUtcTime := by
  simp only [EncodedTime.ofTime, ite_error_eq_ok, Except.ok.injEq, exists_and_left, exists_eq',
    and_true]
  rfl

/-- The extension `x` can be put into a structure exactly if its identifier can. -/
theorem EncodedExtension.exists_ofExtension_iff {x : Extension} :
    (∃ e, EncodedExtension.ofExtension x = .ok e) ↔
      (Oid.ofNarrow? x.id.content).isSome = true := by
  unfold EncodedExtension.ofExtension EncodedExtension.new?
  by_cases h : (Oid.ofNarrow? x.id.content).isSome = true
  · simp [h]
  · simp [h]

/-- An extension `e` that was read can be put into a structure again exactly if the shortest content
of its identifier has three octets or more. -/
theorem EncodedExtension.exists_ofExtension_extension_iff {e : EncodedExtension} :
    (∃ e', ofExtension e.extension = .ok e') ↔ 3 ≤ e.extension.id.content.length := by
  have hid : Oid.ofNarrow? e.id = some e.extension.id := (Option.some_get e.valid).symm
  rw [exists_ofExtension_iff, ← Oid.ofNarrow?_content_eq_some_iff hid]
  constructor
  · intro h
    obtain ⟨id, hid'⟩ := Option.isSome_iff_exists.mp h
    exact (Oid.ofNarrow?_content_eq_some_iff hid).mpr (Oid.le_length_of_ofNarrow? hid')
  · intro h
    rw [h]
    rfl

namespace TbsCertificate

variable {t back : TbsCertificate} {b b' : Certificate.Body}

/-! ## The whole certificate -/

/-- What `t.body` can write: times that a UTCTime says, identifiers that a structure holds, and
serial numbers of at most 20 octets. -/
theorem exists_body_iff :
    (∃ b, t.body = .ok b) ↔
      (∀ x ∈ t.extensions, ∃ e, EncodedExtension.ofExtension x = .ok e) ∧
        t.notBefore.InUtcTime ∧ t.notAfter.InUtcTime ∧
        (BigEndian.ofInt (convertedSerial t.serial)).length ≤ 20 := by
  have hserial : (∃ n, encodedSerial t.serial = .ok n) ↔
      (BigEndian.ofInt (convertedSerial t.serial)).length ≤ 20 := by
    simp only [encodedSerial, ite_error_eq_ok, Except.ok.injEq, exists_and_left, exists_eq',
      and_true, convertedSerial_eq]
  simp only [body_eq_ok_iff, ← exists_mapM_iff, ← EncodedTime.exists_ofTime_iff, ← hserial]
  constructor
  · rintro ⟨_, es, before, after, n, hes, hbefore, hafter, hn, -⟩
    exact ⟨⟨es, hes⟩, ⟨before, hbefore⟩, ⟨after, hafter⟩, n, hn⟩
  · rintro ⟨⟨es, hes⟩, ⟨before, hbefore⟩, ⟨after, hafter⟩, n, hn⟩
    exact ⟨_, es, before, after, n, hes, hbefore, hafter, hn, rfl⟩

/-- What `ofBody` takes from a structure `b`. -/
theorem ofBody_eq_ok (h : ofBody b = .ok t) :
    0 < t.serial ∧ t.notBefore = b.notBefore.time ∧ t.notAfter = b.notAfter.time ∧
      PublicKey.ofOctets b.publicKey = .ok t.publicKey ∧
      t.extensions = (b.extensions.getD []).map EncodedExtension.extension := by
  simp only [ofBody, bind_eq_ok, pure_eq_ok, error_ite_eq_ok] at h
  obtain ⟨_, -, _, -, _, -, hpos, key, hkey, rfl⟩ := h
  exact ⟨Int.not_le.mp hpos, rfl, rfl, hkey, rfl⟩

theorem eq_of_converted (h : Converted t back) (hserial : 0 < t.serial)
    (hbefore : t.notBefore.wholeSecond = t.notBefore)
    (hafter : t.notAfter.wholeSecond = t.notAfter)
    (harcs : ∀ x ∈ t.extensions, ∀ a ∈ x.id.arcs, a < UInt32.size) : back = t := by
  obtain ⟨hnumber, halgorithm, hissuer, hnotBefore, hnotAfter, hsubject, hkey, hextensions⟩ := h
  rw [convertedSerial_eq_iff.mpr (Int.le_of_lt hserial)] at hnumber
  rw [hbefore] at hnotBefore
  rw [hafter] at hnotAfter
  have hextensions := (Extension.eq_iff_of_narrowed hextensions).mpr harcs
  cases t
  cases back
  simp_all

/-- **Certificates that were read.** What was read from a certificate structure `b`, with bounds of
the validity that a UTCTime says, goes into a structure again (`t.body`) exactly if its serial
number has at most 20 octets and the shortest contents of the identifiers of its extensions three
octets or more. From there the same `t` is read again, exactly if the encoding of the key is within
the limit of decoders. -/
theorem rewriting_keeps (h : ofBody b = .ok t) (hbefore : t.notBefore.InUtcTime)
    (hafter : t.notAfter.InUtcTime) :
    ((∃ b', t.body = .ok b') ↔
      (BigEndian.ofInt t.serial).length ≤ 20 ∧ ∀ x ∈ t.extensions, 3 ≤ x.id.content.length) ∧
    ∀ b', t.body = .ok b' →
      (ofBody b' = .ok t ↔ t.publicKey.octets.length ≤ Limits.default.maxInput) := by
  obtain ⟨hserial, hbefore', hafter', hkey, hextensions⟩ := ofBody_eq_ok h
  refine ⟨?_, fun b' hb' => ⟨fun hback => ?_, fun hlen => ?_⟩⟩
  · have hids : (∀ x ∈ t.extensions, ∃ e, EncodedExtension.ofExtension x = .ok e) ↔
        ∀ x ∈ t.extensions, 3 ≤ x.id.content.length := by
      simp only [hextensions, List.forall_mem_map,
        EncodedExtension.exists_ofExtension_extension_iff]
    rw [exists_body_iff, hids, convertedSerial_eq_iff.mpr (Int.le_of_lt hserial)]
    tauto
  · obtain ⟨-, -, -, hkey, -⟩ := ofBody_eq_ok hback
    obtain ⟨-, -, -, -, hoctets, -⟩ := body_eq_ok hb'
    rw [hoctets] at hkey
    exact (PublicKey.ofOctets_eq_ok.mp hkey).1
  · have harcs : ∀ x ∈ t.extensions, ∀ a ∈ x.id.arcs, a < UInt32.size := by
      rw [hextensions, List.forall_mem_map]
      exact fun e _ => Oid.lt_of_ofNarrow? (Option.some_get e.valid).symm
    obtain ⟨back, hback, hconverted⟩ := exists_converted hb' (by omega)
      (PublicKey.readable_of_ofOctets hkey hlen)
    rw [hback, eq_of_converted hconverted hserial (by rw [hbefore']; rfl) (by rw [hafter']; rfl)
      harcs]

/-- `rewriting_keeps` at a serial number of 20 octets, next to an extension. -/
theorem exists_rewriting_keeps_sample :
    ∃ b t b', ofBody b = .ok t ∧ t.serial = 1 <<< 159 - 1 ∧ t.extensions ≠ [] ∧
      t.body = .ok b' ∧ ofBody b' = .ok t := by
  obtain ⟨t, ht, hrange⟩ := exists_of_map_toOption
    (x := (sample (1 <<< 159 - 1) [⟨Oid.keyUsage, true, [3, 2, 7, 128]⟩]).body >>= ofBody)
    (f := fun t => decide (t.serial = 1 <<< 159 - 1 ∧ t.extensions ≠ [] ∧ t.notBefore.InUtcTime ∧
      t.notAfter.InUtcTime ∧ (∀ x ∈ t.extensions, 3 ≤ x.id.content.length) ∧
      t.publicKey.octets.length ≤ Limits.default.maxInput)) (b := true) (by decide +kernel)
  obtain ⟨hserial, hne, hbefore, hafter, hids, hlen⟩ := of_decide_eq_true hrange
  obtain ⟨b, -, hb⟩ := bind_eq_ok.mp ht
  obtain ⟨hwritten, hback⟩ := rewriting_keeps hb hbefore hafter
  obtain ⟨b', hb'⟩ := hwritten.mpr ⟨by rw [hserial]; decide +kernel, hids⟩
  exact ⟨b, t, b', hb, hserial, hne, hb', (hback b' hb').mpr hlen⟩

/-- A certificate of version 3 with a serial number of 21 octets. -/
def longSerial : Certificate.Body where
  version := 2
  serial := 1 <<< 159
  algorithm := SignatureAlgorithm.sha256WithEcdsa.algorithm.octets
  issuer := ⟨[]⟩
  notBefore := ⟨.utc, 1704067200⟩
  notAfter := ⟨.utc, 1704067200⟩
  subject := ⟨[]⟩
  publicKey := sampleKey.octets
  issuerId := none
  subjectId := none
  extensions := none

/-- `longSerial` is read, from its octets and then field by field, and not written again. -/
theorem longSerial_not_rewritten :
    (decode longSerial.octets).toOption.bind Certificate.Body.ofValue? = some longSerial ∧
      ∃ t, ofBody longSerial = .ok t ∧ t.notBefore.InUtcTime ∧ t.notAfter.InUtcTime ∧
        ∀ b, t.body ≠ .ok b := by
  obtain ⟨t, ht, hrange⟩ := exists_of_map_toOption (x := ofBody longSerial)
    (f := fun t => decide (t.notBefore.InUtcTime ∧ t.notAfter.InUtcTime ∧
      t.body.toOption.isNone = true)) (b := true) (by decide +kernel)
  obtain ⟨hbefore, hafter, hnone⟩ := of_decide_eq_true hrange
  refine ⟨by decide +kernel, t, ht, hbefore, hafter, fun b hb => ?_⟩
  rw [hb] at hnone
  cases hnone

end TbsCertificate

end Pkix
