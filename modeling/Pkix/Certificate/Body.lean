import Pkix.Certificate.Parts

/-!
# The structure of certificates

The fields of RFC 5280 in their order, none too many and none missing. That is all: no field is
looked into, and the version is not compared with the fields that came up with later versions.

* `Certificate.Body`: what is signed, with `ofValue?` and `octets`.
* `Certificate.Layout`: body, algorithm and signature, with `ofOctets?` and `octets`.
* `octets` is a canonical form: it leaves out defaults that were spelt out and sorts sets.
-/

namespace Pkix.Certificate

open Der

/-- The fields of a certificate that are signed. -/
structure Body where
  /-- The version less one. -/
  version : Nat
  serial : Int
  /-- The encoding of the signature algorithm. -/
  algorithm : Bytes
  issuer : EncodedName
  notBefore : EncodedTime
  notAfter : EncodedTime
  subject : EncodedName
  /-- The encoding of the subject's key with its algorithm. -/
  publicKey : Bytes
  /-- The content of the BIT STRING that tells issuers of one name apart. -/
  issuerId : Option Bytes
  /-- The content of the BIT STRING that tells subjects of one name apart. -/
  subjectId : Option Bytes
  extensions : Option (List EncodedExtension)
deriving DecidableEq

namespace Body

/-- Reads the content of a BIT STRING under an IMPLICIT tag from `v`. -/
def readUniqueId (v : Value) : Option Bytes :=
  if v.tag.constructed then none else (Reader.bits v.content).map fun _ => v.content

/-- Reads the two bounds of the validity. -/
def readValidity : Value → Option (EncodedTime × EncodedTime) :=
  Reader.sequence do
    return (← Reader.next EncodedTime.ofValue?, ← Reader.next EncodedTime.ofValue?)

/-- Reads a body. -/
def ofValue? : Value → Option Body :=
  Reader.sequence do
    let version ← Reader.explicit 0 Parts.readVersion
    let serial ← Reader.next Parts.readSerial
    let algorithm ← Reader.next (Reader.verbatim Reader.algorithm)
    let issuer ← Reader.next EncodedName.ofValue?
    let (notBefore, notAfter) ← Reader.next readValidity
    let subject ← Reader.next EncodedName.ofValue?
    let publicKey ← Reader.next Parts.readKey
    let issuerId ← Reader.tagged 1 readUniqueId
    let subjectId ← Reader.tagged 2 readUniqueId
    let extensions ← Reader.explicit 3 Parts.readExtensions
    return ⟨version.getD 0, serial, algorithm, issuer, notBefore, notAfter, subject, publicKey,
      issuerId, subjectId, extensions⟩

/-- A field that may be missing, under the context-specific tag with a `number`. -/
def fieldOctets (number : Nat) (constructed : Bool) : Option Bytes → Bytes
  | none => []
  | some content => Write.element (Tag.contextOctet number constructed) content

/-- The encoding of `b`. -/
def octets (b : Body) : Bytes :=
  Write.element Tag.sequence
    (fieldOctets 0 true (if b.version = 0 then none else some (Write.integer b.version)) ++
      Write.integer b.serial ++ b.algorithm ++ b.issuer.octets ++
      Write.element Tag.sequence (b.notBefore.octets ++ b.notAfter.octets) ++
      b.subject.octets ++ b.publicKey ++
      fieldOctets 1 false b.issuerId ++ fieldOctets 2 false b.subjectId ++
      fieldOctets 3 true (b.extensions.map EncodedExtension.listOctets))

end Body

/-- A certificate as a structure. -/
structure Layout where
  body : Body
  /-- The encoding of the signature algorithm. -/
  algorithm : Bytes
  /-- The encoding of the signature. -/
  signature : Bytes
deriving DecidableEq

namespace Layout

/-- The structure that octets have. -/
def ofOctets? : Bytes → Option Layout :=
  Reader.whole (Reader.next (Reader.sequence do
    let body ← Reader.next Body.ofValue?
    let algorithm ← Reader.next (Reader.verbatim Reader.algorithm)
    return ⟨body, algorithm, ← Reader.next (Reader.verbatim Reader.bitString)⟩))

/-- The encoding of `l`. -/
def octets (l : Layout) : Bytes :=
  Write.element Tag.sequence (l.body.octets ++ l.algorithm ++ l.signature)

end Layout

end Pkix.Certificate
