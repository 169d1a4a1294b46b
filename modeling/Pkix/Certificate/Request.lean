import Pkix.Certificate.Basic
import Pkix.Name.Fields

/-!
# Requests for certificates

What a new certificate is to say about its subject. A request can be taken from a certificate that
is to be renewed.

* `BasicConstraints.ofOctets?`: whether the subject may issue certificates itself.
* `Certificate.request`: the request that a certificate answers.
-/

namespace Pkix

open Der

/-- What a certificate is to say. -/
structure Request where
  subject : NameFields
  publicKey : PublicKey
  purposes : List Purpose
  /-- The subject may issue certificates itself. -/
  isAuthority : Bool
  /-- The `extensions` that precede those that follow from the rest. -/
  extensions : List Extension
deriving DecidableEq

namespace BasicConstraints

/-- Whether the subject may issue certificates. A bound on the length of the chain below it is at
most 255. -/
def ofOctets? : Bytes → Option Bool :=
  Reader.whole (Reader.next (Reader.sequence do
    let authority ← Reader.optional (· == Tag.boolean) Reader.boolean
    let _ ← Reader.optional (· == Tag.integer) fun v => do
      let n ← Reader.natural v
      if n ≤ 255 then some n else none
    return authority.getD false))

/-- The encoding for an `authority` or none, without a bound. -/
def octets (authority : Bool) : Bytes :=
  Write.element Tag.sequence (if authority then Write.boolean true else [])

end BasicConstraints

namespace Certificate

/-- The purposes of the key of `c` that have names. -/
def purposes (c : Certificate) : Except Error (List Purpose) := do
  match (← c.typedExtension? Oid.extendedKeyUsage).map TypedExtension.content with
  | some (.extendedKeyUsage (some purposes)) => return purposes.filterMap Purpose.ofOid?
  | _ => return []

/-- The subject of `c` may issue certificates. -/
def isAuthority (c : Certificate) : Except Error Bool :=
  match c.extension? Oid.basicConstraints with
  | none => .ok false
  | some e =>
    match BasicConstraints.ofOctets? e.value with
    | some authority => .ok authority
    | none => .error (.malformed .structureRules)

/-- The request for the same certificate as `c`; other extensions are not asked for. -/
def request (c : Certificate) : Except Error Request := do
  let purposes ← c.purposes
  let isAuthority ← c.isAuthority
  let subject ← c.subject
  return ⟨NameFields.ofName subject, ← c.publicKey, purposes, isAuthority, []⟩

end Certificate

end Pkix
