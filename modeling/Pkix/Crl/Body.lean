import Pkix.Certificate.Parts

/-!
# The structure of revocation lists

The fields of RFC 5280 in their order; the version is never left out.

* `Crl.Entry`, `Crl.Body`, `Crl.Layout`: a revoked certificate, what is signed, and the whole, each
  with a reader and `octets`, which is a canonical form.
-/

namespace Pkix.Crl

open Der

/-- The entry of a revoked certificate. -/
structure Entry where
  serial : Int
  date : EncodedTime
  extensions : Option (List EncodedExtension)
deriving DecidableEq

namespace Entry

/-- Reads an entry. -/
def ofValue? : Value → Option Entry :=
  Reader.sequence do
    let serial ← Reader.next Parts.readSerial
    let date ← Reader.next EncodedTime.ofValue?
    return ⟨serial, date, ← Reader.optional (· == Tag.sequence) Parts.readExtensions⟩

/-- The encoding of `e`. -/
def octets (e : Entry) : Bytes :=
  Write.element Tag.sequence
    (Write.integer e.serial ++ e.date.octets ++
      (e.extensions.map EncodedExtension.listOctets).getD [])

end Entry

/-- The fields of a revocation list that are signed. -/
structure Body where
  /-- The version less one. -/
  version : Nat
  /-- The encoding of the signature algorithm. -/
  algorithm : Bytes
  issuer : EncodedName
  thisUpdate : EncodedTime
  nextUpdate : Option EncodedTime
  revoked : Option (List Entry)
  extensions : Option (List EncodedExtension)
deriving DecidableEq

namespace Body

/-- Reads a body. -/
def ofValue? : Value → Option Body :=
  Reader.sequence do
    let version ← Reader.next Parts.readVersion
    let algorithm ← Reader.next (Reader.verbatim Reader.algorithm)
    let issuer ← Reader.next EncodedName.ofValue?
    let thisUpdate ← Reader.next EncodedTime.ofValue?
    let nextUpdate ← Reader.optional EncodedTime.isTag EncodedTime.ofValue?
    let revoked ← Reader.optional (· == Tag.sequence) (Reader.listOf Entry.ofValue?)
    let extensions ← Reader.explicit 0 Parts.readExtensions
    return ⟨version, algorithm, issuer, thisUpdate, nextUpdate, revoked, extensions⟩

/-- The encoding of `b`. -/
def octets (b : Body) : Bytes :=
  Write.element Tag.sequence
    (Write.integer b.version ++ b.algorithm ++ b.issuer.octets ++ b.thisUpdate.octets ++
      (b.nextUpdate.map EncodedTime.octets).getD [] ++
      (b.revoked.map fun es => Write.element Tag.sequence (es.flatMap Entry.octets)).getD [] ++
      (b.extensions.map fun es =>
        Write.element (Tag.contextOctet 0 true) (EncodedExtension.listOctets es)).getD [])

end Body

/-- A revocation list as a structure. -/
structure Layout where
  body : Body
  /-- The encoding of the signature algorithm. -/
  algorithm : Bytes
  /-- The encoding of the signature. -/
  signature : Bytes
deriving DecidableEq

namespace Layout

/-- The structure that octets have. -/
def ofOctets? : Bytes → Option Layout :=
  Reader.whole (Reader.next (Reader.sequence do
    let body ← Reader.next Body.ofValue?
    let algorithm ← Reader.next (Reader.verbatim Reader.algorithm)
    return ⟨body, algorithm, ← Reader.next (Reader.verbatim Reader.bitString)⟩))

/-- The encoding of `l`. -/
def octets (l : Layout) : Bytes :=
  Write.element Tag.sequence (l.body.octets ++ l.algorithm ++ l.signature)

end Layout

end Pkix.Crl
