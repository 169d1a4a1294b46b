import Pkix.SignedData.Basic

/-!
# Verifying signed data

A signer verifies if its certificate is among those of the signed data, allows signatures, and has
a key that fits the signature. One that does not is left out; it is an error only if an algorithm
cannot be used, a part that is needed cannot be read, or the key may not sign.

* `SignedData.certificate?`: the certificate with a serial number and an issuer.
* `Signer.verify`: one signer, over the content or over octets that travelled on their own.
* `SignedData.verify`: the signers that verify, in their order.
-/

namespace Pkix

/-- What verifying signed data comes to. -/
inductive Verification
  | verified (signers : List Signer)
  | noneVerified

namespace Verification

/-- Some signer verified. -/
def isVerified : Verification → Bool
  | verified _ => true
  | noneVerified => false

/-- The signers that verified. -/
def signers : Verification → List Signer
  | verified signers => signers
  | noneVerified => []

end Verification

/-- The certificate `c` has the given `serial` number and `issuer`. -/
def Certificate.identifiedBy (c : Certificate) (serial : Int) (issuer : Name) : Bool :=
  c.serial == serial && match c.issuer with
    | .ok name => name == issuer
    | .error _ => false

/-- The first certificate of `d` with a `serial` number and an `issuer`. -/
def SignedData.certificate? (d : SignedData) (serial : Int) (issuer : Name) :
    Option Certificate :=
  d.certificates.find? (·.identifiedBy serial issuer)

namespace Signer

/-- The certificate of `d` that a signer `s` refers to. -/
def certificate? (s : Signer) (d : SignedData) : Option Certificate :=
  d.certificate? s.serial s.issuer

/-- The signature of `s` checks out, over the content of `d` or over octets that are given in its
place (`detached`). -/
def verify (s : Signer) (d : SignedData) (detached : Option Bytes) : Except Error Bool := do
  match detached.or d.content.bytes? with
  | none => return false
  | some content =>
    let digest ← Digest.ofAlgorithm s.digestAlgorithm
    match ← s.signedOctets digest d.content.type content with
    | none => return false
    | some signed =>
      match s.certificate? d with
      | none => return false
      | some certificate => s.check digest signed certificate

end Signer

/-- Verifies every signer of `d`, over the content or over octets that are given in its place
(`detached`). -/
def SignedData.verify (d : SignedData) (detached : Option Bytes) : Except Error Verification := do
  let signers ← d.signers.filterM (·.verify d detached)
  return if signers.isEmpty then .noneVerified else .verified signers

end Pkix
