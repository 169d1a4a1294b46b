import Pkix.Certificate.Basic

/-!
# Certificates that are to be signed

A `TbsCertificate` holds what a new certificate says, each field with its meaning.

* `TbsCertificate.body`: the fields as a certificate holds them, if it can.
* `TbsCertificate.ofBody`: the meaning of the fields of a certificate.
-/

namespace Pkix

open Der

/-- What a certificate says. -/
structure TbsCertificate where
  serial : Int
  algorithm : SignatureAlgorithm
  issuer : EncodedName
  notBefore : Time
  notAfter : Time
  subject : EncodedName
  publicKey : PublicKey
  extensions : List Extension

namespace TbsCertificate

/-- The `serial` number as a certificate holds it: the octets of a number are taken for a number
without sign, which must fit 20 octets with the sign that it then gets. -/
def encodedSerial (serial : Int) : Except Error Int :=
  let n : Int := BigEndian.toNat (BigEndian.ofInt serial)
  if (BigEndian.ofInt n).length ≤ 20 then .ok n else .error (.malformed .structureRules)

/-- The fields of `t` as a certificate of version 3 holds them. -/
def body (t : TbsCertificate) : Except Error Certificate.Body := do
  let extensions ← t.extensions.mapM EncodedExtension.ofExtension
  let notBefore ← EncodedTime.ofTime t.notBefore
  let notAfter ← EncodedTime.ofTime t.notAfter
  let serial ← encodedSerial t.serial
  return {
    version := 2
    serial
    algorithm := t.algorithm.algorithm.octets
    issuer := t.issuer
    notBefore
    notAfter
    subject := t.subject
    publicKey := t.publicKey.octets
    issuerId := none
    subjectId := none
    extensions := if extensions.isEmpty then none else some extensions }

/-- The meaning of the fields of a certificate, `b`, whose serial number has to be positive. -/
def ofBody (b : Certificate.Body) : Except Error TbsCertificate := do
  let algorithm ← Algorithm.ofValue .default (← decode b.algorithm)
  let algorithm ← SignatureAlgorithm.ofAlgorithm algorithm
  if b.serial ≤ 0 then .error (.certificate (.serialNotPositive b.serial))
  else return {
    serial := b.serial
    algorithm
    issuer := b.issuer
    notBefore := b.notBefore.time
    notAfter := b.notAfter.time
    subject := b.subject
    publicKey := ← PublicKey.ofOctets b.publicKey
    extensions := (b.extensions.getD []).map EncodedExtension.extension }

/-- The encoding of `t`. -/
def octets (t : TbsCertificate) : Except Error Bytes := return (← t.body).octets

end TbsCertificate

end Pkix
