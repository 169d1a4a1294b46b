import Pkix.Key.Private
import Pkix.Pem

/-!
# Containers of private keys

A private key is kept, not encrypted, in the container of PKCS #8: an algorithm and an encoding
of the key that depends on it, perhaps with the public key.

* `PrivateKey.ofContainer`, `PrivateKey.container`: reading and writing. What is read has to be
  consistent; an algorithm or curve that is not supported is told apart from all other faults.
* `PrivateKey.ofPem`: reading from text.
-/

namespace Pkix

open Der

/-- A container, its key not looked into. -/
structure KeyContainer where
  algorithm : Oid
  parameters : Option Value
  key : Bytes
  /-- The public key, if it is there. -/
  publicKey : Option Bytes

namespace KeyContainer

/-- A public key under an IMPLICIT tag, `v`. -/
def readPublicKey (v : Value) : Option Bytes :=
  if v.tag.constructed then none else Reader.wholeBits v.content

/-- Any further field, `v`. -/
def isExtension (v : Value) : Bool :=
  v.tag.cls == .context && (Reader.inside some v).isSome

/-- The container that octets encode. Its version says whether the public key is there; fields
that came up later are passed over. -/
def ofOctets? : Bytes → Option KeyContainer :=
  Reader.whole (Reader.next (Reader.sequence do
    let version ← Reader.next Reader.natural
    let (algorithm, parameters) ← Reader.next Reader.algorithm
    let key ← Reader.next Reader.octetString
    let publicKey ← Reader.tagged 1 readPublicKey
    let extensions ← Reader.remaining
    if extensions.all isExtension ∧ version = (if publicKey.isSome then 1 else 0) then
      return ⟨algorithm, parameters, key, publicKey⟩
    else failure))

/-- An RSA key in `c`: version 0 and the eight numbers of PKCS #1, of which the last three follow
from the others and are not looked at. -/
def rsa? (c : KeyContainer) : Option PrivateKey := do
  if c.parameters ≠ some (Value.ofOctet Tag.null []) then none
  let numbers ← Reader.whole (Reader.next (Reader.listOf Reader.natural)) c.key
  match numbers with
  | [0, modulus, e, d, p, q, _, _, _] =>
    let publicKey ← Rsa.PublicKey.new? modulus e
    return .rsa (← Rsa.PrivateKey.new? publicKey d p q)
  | _ => none

/-- The number of octets, `length`, that a scalar of a `curve` may have. -/
def scalarLength (curve : Curve) (length : Nat) : Bool := 24 ≤ length && length ≤ curve.size

/-- A key of a `curve` in `c`: version 1, the scalar, perhaps the curve again, which is not looked
at, and perhaps the public key, which has to be the right one. -/
def ecdsa? (c : KeyContainer) (curve : Curve) : Option PrivateKey := do
  let (version, scalar, publicKey) ← Reader.whole (Reader.next (Reader.sequence do
    let version ← Reader.next Reader.natural
    let scalar ← Reader.next Reader.octetString
    let _ ← Reader.explicit 0 Reader.oid
    let publicKey ← Reader.explicit 1 fun v =>
      if v.is Tag.bitString then Reader.wholeBits v.content else none
    return (version, scalar, publicKey))) c.key
  if version ≠ 1 ∨ !scalarLength curve scalar.length then none
  let k ← Ecdsa.PrivateKey.new? curve (BigEndian.toNat scalar)
  if publicKey.all fun b => b = k.publicKey.uncompressed ∨ b = k.publicKey.compressed then
    return .ecdsa k
  else none

/-- An Ed25519 key in `c`: an octet string with the seed. The public key, if it is there, has to be
the right one. -/
def ed25519? (c : KeyContainer) : Option PrivateKey := do
  match c.parameters, c.key with
  | none, 0x04 :: 0x20 :: seed =>
    let k ← Ed25519.PrivateKey.ofSeed? seed
    if c.publicKey.all (· = k.publicKey.octets) then return .ed25519 k else none
  | _, _ => none

/-- The curve that the parameters of `c` name. -/
def curve? (c : KeyContainer) : Option Oid := do Reader.oid (← c.parameters)

/-- The encoding of a container of `version` 0 or 1. -/
def encode (version : Int) (algorithm : Algorithm) (key publicKey : Bytes) : Bytes :=
  Write.element Tag.sequence
    (Write.integer version ++ algorithm.octets ++ Write.octetString key ++ publicKey)

end KeyContainer

namespace PrivateKey

/-- The refusal of a container. -/
def refuse : Except Error PrivateKey := .error (.invalidInput .keyContainer)

/-- The key in a container `b`. -/
def ofContainer (b : Bytes) : Except Error PrivateKey :=
  match KeyContainer.ofOctets? b with
  | none => refuse
  | some c =>
    if c.algorithm = Oid.rsaEncryption then c.rsa?.elim refuse .ok
    else if c.algorithm = Oid.ecPublicKey then
      match c.curve? with
      | none => refuse
      | some id =>
        match Curve.ofOid? id with
        | none => .error (.unsupportedAlgorithm (.curve id))
        | some curve => (c.ecdsa? curve).elim refuse .ok
    else if c.algorithm = Oid.ed25519 then c.ed25519?.elim refuse .ok
    else .error (.unsupportedAlgorithm (.privateKey (Algorithm.plain c.algorithm).name))

/-- The key in the container of a PEM block in `text`. -/
def ofPem (text : String) : Except Error PrivateKey := do
  ofContainer (← Pem.decode text).contents

/-- The eight numbers of an RSA key `k` after a version. -/
def rsaOctets (k : Rsa.PrivateKey) (coefficient : Nat) : Bytes :=
  let numbers := [0, k.publicKey.modulus, k.publicKey.exponent, k.exponent, k.p, k.q, k.exponentP,
    k.exponentQ, coefficient]
  Write.element Tag.sequence (numbers.flatMap fun (n : Nat) => Write.integer n)

/-- The scalar of `k` with its public key. -/
def ecdsaOctets (k : Ecdsa.PrivateKey) : Bytes :=
  Write.element Tag.sequence (Write.integer 1 ++
    Write.octetString (BigEndian.ofNatWidth k.publicKey.curve.size k.scalar) ++
    Write.element (Tag.contextOctet 1 true) (Write.wholeBits k.publicKey.uncompressed))

/-- The container of a key. An RSA key whose factors are not coprime has none. -/
def container : PrivateKey → Except Error Bytes
  | rsa k =>
    match k.coefficient? with
    | none => .error (.invalidInput .keyContainer)
    | some coefficient =>
      .ok (KeyContainer.encode 0 (Algorithm.withNull Oid.rsaEncryption)
        (rsaOctets k coefficient) [])
  | ecdsa k =>
    .ok (KeyContainer.encode 0 (PublicKey.curveAlgorithm k.publicKey.curve) (ecdsaOctets k) [])
  | ed25519 k =>
    .ok (KeyContainer.encode 1 (Algorithm.plain Oid.ed25519) (Write.octetString k.seed)
      (Write.implicit (Tag.contextOctet 1 false) (Write.wholeBits k.publicKey.octets)))

end PrivateKey

end Pkix
