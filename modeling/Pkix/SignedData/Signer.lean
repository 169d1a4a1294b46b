import Pkix.Algorithm.Signature
import Pkix.Bytes
import Pkix.Certificate.Basic
import Pkix.Key.Private
import Pkix.Name.Basic
import Pkix.Name.Text
import Pkix.SignedData.Attribute
import Pkix.SignedData.ContentInfo

/-!
# Signers

A signer names a certificate by issuer and serial number and holds a signature, over the content
or over a set of attributes that holds the digest of the content.

* `Signer.ofValue`, `Signer.octets`: reading in either grammar, and writing.
* `Signer.sign`: a new signature.
* `Signer.signedOctets`: what a signature has to be over.
-/

namespace Pkix

open Der

/-- A `signature` with all that is needed to check it. -/
structure Signer where
  version : UInt32
  issuer : Name
  serial : Int
  digestAlgorithm : Algorithm
  /-- The attributes that are signed, if any are. -/
  authenticated : Option AttributeSet
  encryptionAlgorithm : Algorithm
  signature : Bytes
  unauthenticated : Option AttributeSet

namespace Signer

/-- The tag octet of the attributes that are signed. -/
def authenticatedTag : UInt8 := Tag.contextOctet 0 true

/-- The tag octet of the attributes that are not signed. -/
def unauthenticatedTag : UInt8 := Tag.contextOctet 1 true

/-- Passes over the plain set that a `legacy` signer may have before either attribute set. -/
def skipSet (c : Cursor) : Grammar → Except Error Cursor
  | .current => .ok c
  | .legacy => return (← c.optional Tag.set).2

/-- Reads the attributes under a `tag`, which may be left out after `c`. -/
def readAttributes (c : Cursor) (g : Grammar) (tag : UInt8) :
    Except Error (Option AttributeSet × Cursor) := do
  let c ← skipSet c g
  match ← c.optional tag with
  | (some v, c) => return (some (← AttributeSet.ofValue c.limits v), c)
  | (none, c) => return (none, c)

/-- Reads issuer and serial number after `c`. -/
def readIdentity (c : Cursor) : Except Error ((Name × Int) × Cursor) := do
  let (inner, c) ← c.enter Tag.sequence
  let (issuer, inner) ← inner.value
  let (serial, inner) ← inner.integer
  inner.finish
  return ((← Name.ofValue c.limits issuer, serial), c)

/-- Reads a signer from the value `v` in a grammar `g`. -/
def ofValue (limits : Limits) (g : Grammar) (v : Value) : Except Error Signer := do
  if v.is Tag.sequence then
    let (version, c) ← (v.cursor limits).word
    let ((issuer, serial), c) ← readIdentity c
    let (digestAlgorithm, c) ← Algorithm.read c
    let (authenticated, c) ← readAttributes c g authenticatedTag
    let (encryptionAlgorithm, c) ← Algorithm.read c
    let (signature, c) ← c.octetString
    let (unauthenticated, c) ← readAttributes c g unauthenticatedTag
    if c.isEmpty then
      return { version, issuer, serial, digestAlgorithm, authenticated, encryptionAlgorithm,
               signature, unauthenticated }
    else .error (.malformed .signerInfoTrailing)
  else .error (.malformed (.wrongStructure .signerInfo))

/-- The encoding of attributes `s` under a `tag`, nothing where there are none. -/
def attributesOctets (tag : UInt8) : Option AttributeSet → Except Error Bytes
  | none => .ok []
  | some s => s.implicit tag

/-- The encoding of `s`. -/
def octets (s : Signer) : Except Error Bytes := do
  let authenticated ← attributesOctets authenticatedTag s.authenticated
  let unauthenticated ← attributesOctets unauthenticatedTag s.unauthenticated
  return Write.element Tag.sequence
    (Write.word s.version ++
      Write.element Tag.sequence (s.issuer.octets ++ Write.integer s.serial) ++
      s.digestAlgorithm.octets ++ authenticated ++ s.encryptionAlgorithm.octets ++
      Write.octetString s.signature ++ unauthenticated)

/-- The attributes of a signature over a `content`: its `type`, the `time` and its digest. -/
def attributesFor (digest : Digest) (type : Oid) (content : Bytes) (time : Time) :
    Except Error AttributeSet := do
  AttributeSet.new [Attribute.contentType type, ← Attribute.signingTime time,
    Attribute.messageDigest (digest.hash content)]

/-- Signs a `content` with the `key` of a `certificate`. At a given `time`, attributes that say so
are signed in place of the content itself. -/
def sign (key : PrivateKey) (certificate : Certificate) (digest : Digest) (type : Oid)
    (content : Bytes) (time : Option Time) : Except Error Signer := do
  let authenticated ← match time with
    | none => pure none
    | some t => do pure (some (← attributesFor digest type content t))
  let signature ← key.sign digest ((authenticated.map AttributeSet.encoded).getD content)
  return {
    version := 1
    issuer := ← certificate.issuer
    serial := certificate.serial
    digestAlgorithm := digest.algorithm
    authenticated
    encryptionAlgorithm := key.encryptionAlgorithm
    signature
    unauthenticated := none }

/-- The attributes `s` belong to a `content`: they name its `type` and its digest. -/
def attributesMatch (s : AttributeSet) (digest : Digest) (type : Oid) (content : Bytes) :
    Except Error Bool := do
  if (← s.contentType) ≠ some type then return false
  else return (← s.messageDigest) == some (digest.hash content)

/-- The octets that the signature of `s` has to be over if it is one of the `content`: the
attributes that are signed, if these belong to the content, or the content itself. -/
def signedOctets (s : Signer) (digest : Digest) (type : Oid) (content : Bytes) :
    Except Error (Option Bytes) := do
  match s.authenticated with
  | none => return some content
  | some set => return if ← attributesMatch set digest type content then some set.encoded else none

/-- The uses of the key allow signatures; a `certificate` that does not speak of uses allows all. -/
def maySign (certificate : Certificate) : Except Error Bool := do
  match (← certificate.keyUsage?).map TypedExtension.content with
  | some (.keyUsage bits) =>
    return KeyUse.get bits .digitalSignature || KeyUse.get bits .nonRepudiation
  | _ => return true

/-- The signature of `s` is one over the octets `signed` with the key of the `certificate`. -/
def check (s : Signer) (digest : Digest) (signed : Bytes) (certificate : Certificate) :
    Except Error Bool := do
  if ← maySign certificate then
    let scheme ← Scheme.ofAlgorithm s.encryptionAlgorithm
    (← certificate.publicKey).verify scheme digest signed s.signature
  else .error (.signature .keyUsage)

/-- A set of attributes `s` after what it is, a `label`. -/
def attributesText (label : String) : Option AttributeSet → Except Error String
  | none => .ok ""
  | some s => return "\t" ++ label ++ ": " ++ (← s.text)

/-- The parts of `s` line by line. -/
def text (s : Signer) : Except Error String := do
  let authenticated ← attributesText "authenticatedAttributes" s.authenticated
  let unauthenticated ← attributesText "unauthenticatedAttributes" s.unauthenticated
  return "Signer Info for (issuer): " ++ s.issuer.text ++
    "\n\tversion: " ++ Text.hex s.version.toNat ++
    "\n\tcertificateSerialNumber: " ++ Text.hex s.serial ++
    "\n\tdigestAlgorithmId: " ++ s.digestAlgorithm.name ++ "\n" ++ authenticated ++
    "\tdigestEncryptionAlgorithmId: " ++ s.encryptionAlgorithm.name ++
    "\n\tencryptedDigest: " ++ s.signature.toHex ++ "\n" ++ unauthenticated

end Signer

end Pkix
