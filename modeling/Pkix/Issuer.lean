import Pkix.Certificate.Request
import Pkix.Certificate.Tbs
import Pkix.Crl.Basic
import Pkix.Key.Private

/-!
# Issuing certificates and revocation lists

An issuer has a name and a key. What is drawn at random or read from a clock is an argument.

* `Issuer.issue`: a certificate for a request.
* `Certificate.selfSigned`: a certificate whose subject is its issuer, valid for a year.
* `Issuer.revoke`: a revocation list.
-/

namespace Pkix

open Der

/-- Who issues certificates and revocation lists. -/
structure Issuer where
  name : EncodedName
  key : PrivateKey

namespace NameFields

/-- The name with the fields `f`, as a certificate holds it. -/
def encodedName (f : NameFields) : Except Error EncodedName :=
  return EncodedName.ofRelativeNames (← Rfc4514.parse f.text)

end NameFields

namespace Request

/-- The use of a key that serves a purpose. -/
def useFor : Purpose → KeyUse
  | .clientAuth | .serverAuth | .emailProtection => .keyEncipherment
  | .codeSigning | .timeStamping | .ocspSigning => .digitalSignature

/-- The uses of the key that follow from the request `r`. -/
def uses (r : Request) : List KeyUse :=
  (if r.isAuthority then [.keyCertSign, .crlSign] else []) ++ r.purposes.map useFor

/-- The constraints that follow from the request `r`, which are critical. -/
def constraints (r : Request) : Extension :=
  ⟨Oid.basicConstraints, true, BasicConstraints.octets r.isAuthority⟩

/-- The uses and the purposes of the key that follow from the request `r`, where there are any. -/
def usage (r : Request) : List TypedExtension :=
  (if r.uses.isEmpty then [] else [TypedExtension.keyUsage (KeyUse.bits r.uses)]) ++
    (if r.purposes.isEmpty then []
      else [TypedExtension.extendedKeyUsage true (r.purposes.map Purpose.oid)])

/-- All extensions of the certificate: those of the request `r`, the `constraints`, the identifier
of the key, its uses and its purposes. -/
def allExtensions (r : Request) : Except Error (List Extension) := do
  let keyId := TypedExtension.subjectKeyIdentifier r.publicKey.identifier
  return r.extensions ++ r.constraints ::
    (← (keyId :: r.usage).mapM TypedExtension.extension)

end Request

namespace Issuer

/-- What a certificate of `i` for a request `r` says. -/
def tbs (i : Issuer) (serial : Int) (notBefore notAfter : Time) (r : Request) :
    Except Error TbsCertificate := do
  let extensions ← r.allExtensions
  return {
    serial
    algorithm := i.key.signatureAlgorithm
    issuer := i.name
    notBefore
    notAfter
    subject := ← r.subject.encodedName
    publicKey := r.publicKey
    extensions }

/-- A certificate of `i` for a request `r`, with a `serial` number and bounds of its validity. -/
def issue (i : Issuer) (serial : Int) (notBefore notAfter : Time) (r : Request) :
    Except Error Certificate := do
  let tbs ← i.tbs serial notBefore notAfter r
  let body ← tbs.body
  let signature ← i.key.sign i.key.signatureAlgorithm.digest body.octets
  let layout : Certificate.Layout :=
    ⟨body, i.key.signatureAlgorithm.algorithm.octets, Write.wholeBits signature⟩
  Certificate.ofOctets layout.octets

/-- The entry for a revoked certificate. A `reason` is given unless it is unspecified. -/
def entryOctets (thisUpdate : Bytes) (serial : Int) (reason : Reason) : Except Error Bytes := do
  let extensions ←
    if reason = .unspecified then pure []
    else
      let e ← (TypedExtension.reasonCode reason).extension
      pure (Write.element Tag.sequence e.octets)
  return Write.element Tag.sequence (Write.integer serial ++ thisUpdate ++ extensions)

/-- The entries of a revocation list for `revoked` certificates, which an empty one is without. -/
def entriesOctets (thisUpdate : Bytes) (revoked : List (Int × Reason)) : Except Error Bytes := do
  let entries ← revoked.mapM fun (serial, reason) => entryOctets thisUpdate serial reason
  return if entries.isEmpty then [] else Write.element Tag.sequence entries.flatten

/-- A revocation list of version 2 by `i`. -/
def revoke (i : Issuer) (revoked : List (Int × Reason)) (thisUpdate : Time)
    (nextUpdate : Option Time) : Except Error Crl := do
  let algorithm := i.key.signatureAlgorithm
  let updated ← Write.time thisUpdate
  let next ← match nextUpdate with
    | some t => Write.time t
    | none => pure []
  let entries ← entriesOctets updated revoked
  let body := Write.element Tag.sequence
    (Write.word 1 ++ algorithm.algorithm.octets ++ i.name.octets ++ updated ++ next ++ entries)
  let signature ← i.key.sign algorithm.digest body
  Crl.ofOctets (Signed.octets ⟨body, algorithm.algorithm, signature⟩)

end Issuer

namespace Certificate

/-- The issuer that the subject of a certificate `c` is, with the subject's private `key`. -/
def issuerWith (c : Certificate) (key : PrivateKey) : Issuer := ⟨c.layout.body.subject, key⟩

/-- The number of seconds in a year without leap day. -/
def year : Int := 365 * 86400

/-- A certificate for a request `r` whose subject is its issuer, valid for a year from `now`. -/
def selfSigned (key : PrivateKey) (serial : Int) (now : Time) (r : Request) :
    Except Error Certificate := do
  let name ← r.subject.encodedName
  Issuer.issue ⟨name, key⟩ serial now { now with seconds := now.seconds + year } r

end Certificate

end Pkix
