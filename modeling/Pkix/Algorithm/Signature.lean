import Pkix.Algorithm.Basic
import Pkix.Digest

/-!
# Algorithms of signatures

* `Digest.ofAlgorithm`, `Digest.algorithm`: digests and the algorithms that name them.
* `Scheme.ofAlgorithm`: the signature scheme that an algorithm stands for. Signers name either the
  kind of their key or the scheme together with a digest.
* `SignatureAlgorithm`: the combinations of scheme and digest that certificates are signed with.
-/

namespace Pkix

namespace Digest

/-- The digest that an algorithm `a` names. -/
def ofAlgorithm (a : Algorithm) : Except Error Digest :=
  match ofOid? a.id with
  | some d => .ok d
  | none => .error (.unsupportedAlgorithm (.digest a.name))

/-- The algorithm that names a digest `d`, with NULL parameters. -/
def algorithm (d : Digest) : Algorithm := Algorithm.withNull d.oid

end Digest

/-- A way to sign and verify. -/
inductive Scheme
  | rsa
  | ecdsa
  | ed25519
  | dsa
deriving DecidableEq, Repr

namespace Scheme

/-- The name of a scheme. -/
def name : Scheme → String
  | rsa => "RSA"
  | ecdsa => "ECDSA"
  | ed25519 => "Ed25519"
  | dsa => "DSA"

/-- The identifiers that stand for a scheme. -/
def oids : Scheme → List Oid
  | rsa => [Oid.rsaEncryption, Oid.md2WithRsa, Oid.md5WithRsa, Oid.sha1WithRsa,
      Oid.sha224WithRsa, Oid.sha256WithRsa, Oid.sha384WithRsa, Oid.sha512WithRsa]
  | ecdsa => [Oid.ecPublicKey, Oid.ecdsaWithSha1, Oid.ecdsaWithSha224, Oid.ecdsaWithSha256,
      Oid.ecdsaWithSha384, Oid.ecdsaWithSha512]
  | ed25519 => [Oid.ed25519]
  | dsa => [Oid.dsa, Oid.dsaWithSha1, Oid.dsaWithSha224, Oid.dsaWithSha256]

/-- The scheme that an algorithm `a` stands for. -/
def ofAlgorithm (a : Algorithm) : Except Error Scheme :=
  match [rsa, ecdsa, ed25519, dsa].find? (·.oids.contains a.id) with
  | some s => .ok s
  | none => .error (.unsupportedAlgorithm (.signature a.name))

end Scheme

/-- The algorithms that certificates are signed with. -/
inductive SignatureAlgorithm
  | sha256WithRsa
  | sha384WithRsa
  | sha512WithRsa
  | sha256WithEcdsa
  | sha384WithEcdsa
  | sha512WithEcdsa
  | ed25519
deriving DecidableEq, Repr

namespace SignatureAlgorithm

/-- All signature algorithms. -/
def all : List SignatureAlgorithm :=
  [sha256WithRsa, sha384WithRsa, sha512WithRsa, sha256WithEcdsa, sha384WithEcdsa,
    sha512WithEcdsa, ed25519]

/-- The name of a signature algorithm. -/
def name : SignatureAlgorithm → String
  | sha256WithRsa => "SHA256withRSA"
  | sha384WithRsa => "SHA384withRSA"
  | sha512WithRsa => "SHA512withRSA"
  | sha256WithEcdsa => "SHA256withECDSA"
  | sha384WithEcdsa => "SHA384withECDSA"
  | sha512WithEcdsa => "SHA512withECDSA"
  | ed25519 => "Ed25519"

/-- The identifier of a signature algorithm. -/
def oid : SignatureAlgorithm → Oid
  | sha256WithRsa => Oid.sha256WithRsa
  | sha384WithRsa => Oid.sha384WithRsa
  | sha512WithRsa => Oid.sha512WithRsa
  | sha256WithEcdsa => Oid.ecdsaWithSha256
  | sha384WithEcdsa => Oid.ecdsaWithSha384
  | sha512WithEcdsa => Oid.ecdsaWithSha512
  | ed25519 => Oid.ed25519

/-- The scheme of a signature algorithm. -/
def scheme : SignatureAlgorithm → Scheme
  | sha256WithRsa | sha384WithRsa | sha512WithRsa => .rsa
  | sha256WithEcdsa | sha384WithEcdsa | sha512WithEcdsa => .ecdsa
  | ed25519 => .ed25519

/-- The digest of a signature algorithm; `ed25519` takes its digest itself. -/
def digest : SignatureAlgorithm → Digest
  | sha256WithRsa | sha256WithEcdsa => .sha256
  | sha384WithRsa | sha384WithEcdsa => .sha384
  | sha512WithRsa | sha512WithEcdsa | ed25519 => .sha512

/-- The algorithm as `s` is written: with NULL parameters for RSA and without any for the rest. -/
def algorithm (s : SignatureAlgorithm) : Algorithm :=
  if s.scheme = .rsa then Algorithm.withNull s.oid else Algorithm.plain s.oid

/-- The signature algorithm that an algorithm `a` names; its parameters do not count. -/
def ofAlgorithm (a : Algorithm) : Except Error SignatureAlgorithm :=
  match all.find? (·.oid == a.id) with
  | some s => .ok s
  | none => .error (.unsupportedAlgorithm (.signature a.name))

end SignatureAlgorithm

end Pkix
