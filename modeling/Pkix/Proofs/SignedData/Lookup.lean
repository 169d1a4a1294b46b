import Pkix.Proofs.Name.Match
import Pkix.Proofs.SignedData.Soundness

/-!
# Certificates by serial number and issuer

A certificate is found by the class of its issuer's name, whatever spelling is asked for.

* `Certificate.Bears`: a certificate has a serial number and an issuer.
* `SignedData.certificate?_eq_some_iff`, `SignedData.certificate?_eq_none_iff`: the first such
  certificate is found.
* `SignedData.lookup_respects_names`: the spelling of the issuer does not matter.
-/

namespace Pkix

open Der

namespace Certificate

/-- The certificate `c` has the given `serial` number, and an issuer whose name can be read and is
the same as `issuer`. -/
def Bears (c : Certificate) (serial : Int) (issuer : Name) : Prop :=
  c.serial = serial ∧ ∃ name, c.issuer = .ok name ∧ (name == issuer) = true

theorem identifiedBy_iff {c : Certificate} {serial : Int} {issuer : Name} :
    c.identifiedBy serial issuer = true ↔ c.Bears serial issuer := by
  unfold identifiedBy Bears
  cases c.issuer <;> simp

theorem identifiedBy_congr {i j : Name} (h : (i == j) = true) (c : Certificate) (serial : Int) :
    c.identifiedBy serial i = c.identifiedBy serial j := by
  unfold identifiedBy
  cases c.issuer with
  | error e => rfl
  | ok name => exact congrArg (c.serial == serial && ·) (Name.beq_congr_right h name)

end Certificate

namespace SignedData

variable {d : SignedData} {serial : Int} {issuer : Name}

/-- The certificate that is found is the first one that bears `serial` and `issuer`. -/
theorem certificate?_eq_some_iff {c : Certificate} :
    d.certificate? serial issuer = some c ↔
      c.Bears serial issuer ∧ ∃ before after, d.certificates = before ++ c :: after ∧
        ∀ other ∈ before, ¬other.Bears serial issuer := by
  simp only [certificate?, List.find?_eq_some_iff_append, Certificate.identifiedBy_iff,
    Bool.not_eq_true', ← Bool.not_eq_true]

/-- No certificate is found only where none bears `serial` and `issuer`. -/
theorem certificate?_eq_none_iff :
    d.certificate? serial issuer = none ↔ ∀ c ∈ d.certificates, ¬c.Bears serial issuer := by
  simp only [certificate?, List.find?_eq_none, Certificate.identifiedBy_iff]

/-- **Names form classes, and certificates are looked up by class.** To be the same is an
equivalence between names. Names that are the same, `i` and `j`, find the same certificate: the
first one with the `serial` number whose issuer can be read and is the same, and none only where
there is no such certificate. -/
theorem lookup_respects_names :
    (Equivalence fun a b : Name => (a == b) = true) ∧
    ∀ (d : SignedData) (serial : Int) (i j : Name), (i == j) = true →
      d.certificate? serial j = d.certificate? serial i ∧
      (∀ c, d.certificate? serial i = some c ↔
        c.Bears serial i ∧ ∃ before after, d.certificates = before ++ c :: after ∧
          ∀ other ∈ before, ¬other.Bears serial i) ∧
      (d.certificate? serial i = none ↔ ∀ c ∈ d.certificates, ¬c.Bears serial i) := by
  refine ⟨Name.equivalence, fun d serial i j h => ⟨?_, fun c => certificate?_eq_some_iff,
    certificate?_eq_none_iff⟩⟩
  simp only [certificate?, Certificate.identifiedBy_congr h]

/-- A name that is the same as `Signer.sampleName`, the issuer of the sample certificate: another
type of text, blanks and letters in lower case. -/
def respelledName : Bytes :=
  Write.element Tag.sequence (Write.element Tag.set (Write.element Tag.sequence
    (Write.oid Oid.commonName ++ Write.element Tag.utf8String (Bytes.ofString " ca "))))

/-- `lookup_respects_names` at two spellings of one name: `respelledName` finds the certificate
too. -/
theorem exists_lookup_respelled :
    ∃ (d : SignedData) (i j : Name) (c : Certificate), i.octets = Signer.sampleName ∧
      j.octets = respelledName ∧ (i == j) = true ∧ d.certificate? 1 i = some c ∧
      d.certificate? 1 j = some c := by
  obtain ⟨⟨i, j, d⟩, -, hfacts⟩ := exists_of_map_toOption
    (x := do return (← Name.ofOctets Signer.sampleName, ← Name.ofOctets respelledName,
      ← ofOctets (Signer.sampleSigned [Signer.sampleCertificate Signer.sampleModulus]
        Signer.sampleAttributes) .default))
    (f := fun (i, j, d) => (i.octets, j.octets, i == j, (d.certificate? 1 i).isSome))
    (b := (Signer.sampleName, respelledName, true, true)) (by decide +kernel)
  simp only [Prod.mk.injEq] at hfacts
  obtain ⟨hi, hj, h, hfound⟩ := hfacts
  obtain ⟨c, hc⟩ := Option.isSome_iff_exists.mp hfound
  obtain ⟨hsame, -, -⟩ := lookup_respects_names.2 d 1 i j h
  exact ⟨d, i, j, c, hi, hj, h, hc, hsame.trans hc⟩

end SignedData

end Pkix
