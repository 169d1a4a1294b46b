import Pkix.Certificate.Body
import Pkix.Extension.Content
import Pkix.Name.Text
import Pkix.Pem
import Pkix.Signed

/-!
# Certificates

A certificate keeps the octets it was read from, so that embedding and comparing it is exact.
Its structure is checked when it is read; the fields are taken from the octets and looked into
only when they are asked for.

* `Certificate.ofOctets`, `Certificate.ofPem`: reading.
* `Certificate.issuer`, `Certificate.subject`, `Certificate.publicKey` and so on: the fields.
* `Certificate.verify`: checks the signature with the key of the issuer.
* `Certificate.text`: a few lines between brackets. A name that cannot be read is shown as the
  reason why, and an algorithm that cannot be read is left out.
-/

namespace Pkix

open Der

/-- A certificate: its `octets`, and what they say. -/
structure Certificate where
  /-- The encoding. -/
  octets : Bytes
  layout : Certificate.Layout
  /-- The encoding has this structure, `layout`. -/
  layout_eq : Certificate.Layout.ofOctets? octets = some layout

namespace Certificate

theorem ext_octets {a b : Certificate} (h : a.octets = b.octets) : a = b := by
  obtain ⟨bytes, l, hl⟩ := a
  obtain ⟨bytes', l', hl'⟩ := b
  cases h
  cases hl.symm.trans hl'
  rfl

/-- Two certificates `a` and `b` are the same if their octets are. -/
instance : DecidableEq Certificate := fun a b =>
  decidable_of_iff (a.octets = b.octets) ⟨ext_octets, fun h => h ▸ rfl⟩

/-- The label of certificates in PEM text. -/
def label : String := "CERTIFICATE"

/-- Reads a certificate from the octets `b`. -/
def ofOctets (b : Bytes) : Except Error Certificate :=
  match h : Layout.ofOctets? b with
  | some layout => .ok ⟨b, layout, h⟩
  | none => .error (.certificate .structureRules)

/-- Reads a certificate from the PEM block of a `text` with the right `label`. -/
def ofPem (text : String) : Except Error Certificate := do
  ofOctets (← (← Pem.decode text).require label)

/-- The certificate `c` as PEM text. -/
def pem (c : Certificate) : String := Pem.encode ⟨label, c.octets⟩

/-- Body, algorithm and signature of `c`. -/
def signed (c : Certificate) : Except Error Signed := Signed.ofOctets c.octets

/-- The number that the issuer gave the certificate `c`. -/
def serial (c : Certificate) : Int := c.layout.body.serial

/-- The fields of the body of `c` after the version, which may be left out: serial number,
algorithm, issuer, validity, subject, key and so on. -/
def fields (c : Certificate) : Except Error (List Value) := do
  let fields ← (← decode (← c.signed).body).children .default
  return match fields with
    | first :: rest => if first.is (Tag.contextOctet 0 true) then rest else fields
    | [] => []

/-- The field of the body at an `index`. -/
def field (c : Certificate) (index : Nat) : Except Error Value := do
  match (← c.fields)[index]? with
  | some v => return v
  | none => .error (.malformed .tbsTruncated)

/-- The name of the issuer of `c`. -/
def issuer (c : Certificate) : Except Error Name := do Name.ofValue .default (← c.field 2)

/-- The name of the subject of `c`. -/
def subject (c : Certificate) : Except Error Name := do Name.ofValue .default (← c.field 4)

/-- The key of the subject of `c`. -/
def publicKey (c : Certificate) : Except Error PublicKey := do PublicKey.ofValue (← c.field 5)

/-- One of the bounds of the validity, by its `index`. -/
def bound (c : Certificate) (index : Nat) : Except Error Time := do
  match (← (← c.field 3).children .default)[index]? with
  | some v => v.time
  | none => .error (.malformed .validityTruncated)

/-- The start of the validity of `c`. -/
def notBefore (c : Certificate) : Except Error Time := c.bound 0

/-- The end of the validity of `c`. -/
def notAfter (c : Certificate) : Except Error Time := c.bound 1

/-- The algorithm of the signature of `c`. -/
def algorithm (c : Certificate) : Except Error Algorithm := return (← c.signed).algorithm

/-- The signature was made with the private key that belongs to `key`. -/
def verify (c : Certificate) (key : PublicKey) : Except Error Bool := do (← c.signed).verify key

/-- The extensions of `c`, their content not looked into. -/
def rawExtensions (c : Certificate) : List Extension :=
  (c.layout.body.extensions.getD []).map EncodedExtension.extension

/-- The extensions of `c` with their contents. -/
def extensions (c : Certificate) : Except Error (List TypedExtension) :=
  c.rawExtensions.mapM TypedExtension.ofExtension

/-- The first extension of the kind `id`. -/
def extension? (c : Certificate) (id : Oid) : Option Extension :=
  c.rawExtensions.find? (·.id == id)

/-- The content of the first extension of the kind `id`, if there is one. -/
def typedExtension? (c : Certificate) (id : Oid) : Except Error (Option TypedExtension) :=
  match c.extension? id with
  | none => .ok none
  | some e => return some (← TypedExtension.ofExtension e)

/-- What the key of `c` may be used for. -/
def keyUsage? (c : Certificate) : Except Error (Option TypedExtension) :=
  c.typedExtension? Oid.keyUsage

end Certificate

/-! ## Certificates as text -/

/-- The text of a name `n`, or between angle brackets the error `e` that there is instead. -/
def Name.textOrError : Except Error Name → String
  | .ok n => n.text
  | .error e => "<" ++ e.message ++ ">"

/-- Subject, issuer, serial number and algorithm of `c`. -/
def Certificate.text (c : Certificate) : String :=
  "[\n  Subject: " ++ Name.textOrError c.subject ++
    "\n  Issuer: " ++ Name.textOrError c.issuer ++
    "\n  SerialNumber: [ " ++ Text.hex c.serial ++ " ]\n" ++
    (match c.algorithm with
      | .ok a => "  Algorithm: [" ++ a.name ++ "]\n"
      | .error _ => "") ++ "]"

end Pkix
