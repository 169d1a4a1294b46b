import Pkix.Key.Public

/-!
# Private keys

A private key knows its public key, what it signs certificates with, and how to sign.
-/

namespace Pkix

/-- A private key. -/
inductive PrivateKey
  | rsa (key : Rsa.PrivateKey)
  | ecdsa (key : Ecdsa.PrivateKey)
  | ed25519 (key : Ed25519.PrivateKey)

namespace PrivateKey

/-- The public key. -/
def publicKey : PrivateKey → PublicKey
  | rsa k => .rsa k.publicKey
  | ecdsa k => .ecdsa k.publicKey
  | ed25519 k => .ed25519 k.publicKey

/-- The algorithm that the key signs certificates with. -/
def signatureAlgorithm : PrivateKey → SignatureAlgorithm
  | rsa _ => .sha256WithRsa
  | ecdsa k =>
    match k.publicKey.curve with
    | .p256 => .sha256WithEcdsa
    | .p384 => .sha384WithEcdsa
  | ed25519 _ => .ed25519

/-- The algorithm that a signer of content names for the key. -/
def encryptionAlgorithm : PrivateKey → Algorithm
  | rsa _ => Algorithm.withNull Oid.rsaEncryption
  | ecdsa _ => Algorithm.plain Oid.ecPublicKey
  | ed25519 _ => Algorithm.plain Oid.ed25519

/-- The signature of a `message`. Ed25519 signs the message itself, the others its `digest`. -/
def sign (k : PrivateKey) (digest : Digest) (message : Bytes) : Except Error Bytes :=
  match k with
  | rsa k => k.sign digest (digest.hash message)
  | ecdsa k => Ecdsa.sign k (digest.hash message)
  | ed25519 k => .ok (k.sign message)

end PrivateKey

end Pkix
