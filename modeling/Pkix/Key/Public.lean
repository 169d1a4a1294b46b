import Pkix.Algorithm.Dsa
import Pkix.Ecdsa
import Pkix.Ed25519
import Pkix.Rsa

/-!
# Public keys

* `PublicKey.ofValue`, `PublicKey.octets`: reading and writing a key together with its algorithm.
  Some keys have several spellings, of which one is written.
* `PublicKey.identifier`: the SHA-1 digest of the key proper.
* `PublicKey.verify`: checks a signature. DSA keys are read and shown but verify nothing.
-/

namespace Pkix

open Der

/-- A public key. -/
inductive PublicKey
  | rsa (key : Rsa.PublicKey)
  | ecdsa (key : Ecdsa.PublicKey)
  | ed25519 (key : Ed25519.PublicKey)
  | dsa (parameters : DsaParameters) (y : Int)
deriving DecidableEq

namespace PublicKey

/-- The scheme that a key belongs to. -/
def scheme : PublicKey → Scheme
  | rsa _ => .rsa
  | ecdsa _ => .ecdsa
  | ed25519 _ => .ed25519
  | dsa _ _ => .dsa

/-- The algorithm of keys of a `curve`. -/
def curveAlgorithm (curve : Curve) : Algorithm :=
  ⟨Oid.ecPublicKey, some (Value.ofOctet Tag.oid curve.oid.content)⟩

/-- The algorithm that a key is for. -/
def algorithm : PublicKey → Algorithm
  | rsa _ => Algorithm.withNull Oid.rsaEncryption
  | ecdsa k => curveAlgorithm k.curve
  | ed25519 _ => Algorithm.plain Oid.ed25519
  | dsa parameters _ => parameters.algorithm

/-- The octets of the key proper. -/
def bits : PublicKey → Bytes
  | rsa k => k.octets
  | ecdsa k => k.uncompressed
  | ed25519 k => k.octets
  | dsa _ y => Write.integer y

/-- A short name of the key proper, `k`. -/
def identifier (k : PublicKey) : Bytes := Digest.sha1.hash k.bits

/-- The encoding of algorithm and key, for `k`. -/
def octets (k : PublicKey) : Bytes :=
  Write.element Tag.sequence (k.algorithm.octets ++ Write.wholeBits k.bits)

/-- The RSA key that the octets `bits` encode. -/
def readRsa (bits : Bytes) : Except Error PublicKey :=
  let numbers := Reader.whole (Reader.next (Reader.sequence do
    return (← Reader.next Reader.natural, ← Reader.next Reader.natural))) bits
  match numbers with
  | some (modulus, exponent) => return rsa (← Rsa.PublicKey.new modulus exponent)
  | none => .error .rsa

/-- The key of a curve that the octets `bits` spell. The curve is named by the `parameters`. -/
def readEcdsa (parameters : Option Value) (bits : Bytes) : Except Error PublicKey := do
  match parameters with
  | none => .error (.malformed .curveMissing)
  | some v =>
    let id ← v.oid
    match Curve.ofOid? id with
    | none => .error (.unsupportedAlgorithm (.curve id))
    | some curve =>
      match Ecdsa.PublicKey.ofOctets? curve bits with
      | some k => return ecdsa k
      | none => .error (.signature .unusable)

/-- The Ed25519 key that the octets `bits` spell. -/
def readEd25519 (bits : Bytes) : Except Error PublicKey :=
  if bits.length ≠ 32 then .error (.malformed .edwardsKeyLength)
  else match Ed25519.PublicKey.ofOctets? bits with
    | some k => .ok (ed25519 k)
    | none => .error (.signature .undecodablePoint)

/-- The key for an algorithm `a` that the octets `bits` spell. -/
def read (a : Algorithm) (bits : Bytes) : Except Error PublicKey :=
  if a.id = Oid.rsaEncryption then readRsa bits
  else if a.id = Oid.ecPublicKey then readEcdsa a.parameters bits
  else if a.id = Oid.ed25519 then readEd25519 bits
  else if a.id = Oid.dsa then do
    let parameters ← DsaParameters.ofAlgorithm a
    return dsa parameters (← (← decode bits).integer)
  else .error (.unsupportedAlgorithm (.publicKey a.name))

/-- Reads a key with its algorithm from the value `v`. -/
def ofValue (v : Value) : Except Error PublicKey := do
  if v.is Tag.sequence then
    let (a, c) ← Algorithm.read (v.cursor .default)
    let (key, c) ← c.expect Tag.bitString
    c.finish
    read a (← key.wholeBits)
  else .error (.malformed (.wrongStructure .publicKeyInfo))

/-- Reads a key with its algorithm from its encoding, `b`. -/
def ofOctets (b : Bytes) : Except Error PublicKey := do ofValue (← decode b)

/-- Checks a `signature` of a `message` under a `scheme` and a `digest`. Octets that are no
signature of the scheme at all do not match either; it is an error only if the key `k` cannot
perform the scheme. -/
def verify (k : PublicKey) (scheme : Scheme) (digest : Digest) (message signature : Bytes) :
    Except Error Bool :=
  if scheme = .dsa then .error (.unsupportedAlgorithm .dsaVerification)
  else if scheme ≠ k.scheme then .error (.signature (.schemeMismatch k.scheme.name scheme.name))
  else match k with
    | rsa k => .ok (k.verify digest (digest.hash message) signature)
    | ecdsa k => .ok (Ecdsa.verify k (digest.hash message) signature)
    | ed25519 k => .ok (k.verify message signature)
    | dsa _ _ => .error (.unsupportedAlgorithm .dsaVerification)

end PublicKey

end Pkix
