import Pkix.Key.Public

/-!
# Signed structures

Certificates and revocation lists are a body, the algorithm of the signature and the signature
over exactly the octets of the body.
-/

namespace Pkix

open Der

/-- The three parts of a signed structure: `body`, `algorithm` and `signature`. -/
structure Signed where
  /-- The encoding of the body, as it stands in the structure. -/
  body : Bytes
  algorithm : Algorithm
  signature : Bytes
deriving DecidableEq

namespace Signed

/-- Takes a signed structure `b` apart. -/
def ofOctets (b : Bytes) : Except Error Signed := do
  let (c, after) ← (Cursor.ofBuffer b .default).enter Tag.sequence
  after.finish
  let (body, c) ← c.raw
  let (algorithm, c) ← Algorithm.read c
  let (signature, c) ← c.expect Tag.bitString
  c.finish
  return ⟨body, algorithm, ← signature.wholeBits⟩

/-- The encoding of `s`. -/
def octets (s : Signed) : Bytes :=
  Write.element Tag.sequence (s.body ++ s.algorithm.octets ++ Write.wholeBits s.signature)

/-- The signature was made over the body of `s` with the private key that belongs to `key`. -/
def verify (s : Signed) (key : PublicKey) : Except Error Bool := do
  let algorithm ← SignatureAlgorithm.ofAlgorithm s.algorithm
  key.verify algorithm.scheme algorithm.digest s.body s.signature

end Signed

end Pkix
