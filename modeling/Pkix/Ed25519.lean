import Pkix.BigEndian
import Pkix.Digest
import Pkix.Modular

/-!
# Ed25519

Signatures over the curve -x² + y² = 1 + d x² y² modulo 2²⁵⁵ - 19. Numbers are written with the
least significant octet first; a point as its second coordinate, with the parity of the first one
in the highest bit.

* `Ed25519.Point.ofOctets?`: the second coordinate need not be reduced, and the parity of zero is
  not looked at.
* `Ed25519.PublicKey`: 32 octets that spell a point. Keys are the same if their octets are.
* `Ed25519.PrivateKey.sign`, `Ed25519.PublicKey.verify`.
-/

namespace Pkix.Ed25519

/-- The prime modulo which coordinates are taken. -/
def prime : Nat := (1 <<< 255) - 19

/-- The order of the base point. -/
def order : Nat := (1 <<< 252) + 27742317777372353535851937790883648493

/-- The constant of the equation, -121665/121666. -/
def constant : Nat := 37095705934669439343138083508754565189542113879843219016388785533085940283555

/-- A number from its octets `b`, the least significant first. -/
def toNat (b : Bytes) : Nat := BigEndian.toNat b.reverse

/-- The 32 lowest octets of a number `n`, the least significant first. -/
def ofNat (n : Nat) : Bytes := (BigEndian.ofNatWidth 32 n).reverse

/-- A point of the curve, by its coordinates `x` and `y`. -/
structure Point where
  x : Nat
  y : Nat
deriving DecidableEq, Repr

namespace Point

/-- The neutral point. -/
def zero : Point := ⟨0, 1⟩

/-- The point that scalars multiply. -/
def base : Point where
  x := 15112221349535400772501151409588531511454012693041857206046113283949847762202
  y := 46316835694926478169428394003475163141307993866256225615783033603165251855960

/-- The sum of two points `a` and `b`; neither denominator is ever zero. -/
def add (a b : Point) : Point :=
  let product := constant * (a.x * b.x % prime) % prime * (a.y * b.y % prime) % prime
  let plus := 1 + product
  let minus := Modular.sub prime 1 product
  let inverse := Modular.inverse prime (plus * minus % prime)
  ⟨(a.x * b.y + a.y * b.x) % prime * (minus * inverse % prime) % prime,
    (a.y * b.y + a.x * b.x) % prime * (plus * inverse % prime) % prime⟩

/-- The sum of `n` times the same point `p`. -/
def multiple (n : Nat) (p : Point) : Point :=
  if n = 0 then zero
  else
    let half := multiple (n / 2) p
    let double := add half half
    if n % 2 = 1 then add double p else double
termination_by n
decreasing_by omega

/-- The inverse of a point `p`. -/
def neg (p : Point) : Point := ⟨Modular.sub prime 0 p.x, p.y⟩

/-- The octets of a point `p`. -/
def octets (p : Point) : Bytes := ofNat (p.y + (p.x % 2) <<< 255)

/-- The root of a `square` modulo the prime, which is 5 modulo 8. -/
def root? (square : Nat) : Option Nat :=
  let x := Modular.pow prime square ((prime + 3) / 8)
  let z := x * Modular.pow prime 2 ((prime - 1) / 4) % prime
  if x * x % prime = square then some x
  else if z * z % prime = square then some z
  else none

/-- The point that 32 octets `b` spell. -/
def ofOctets? (b : Bytes) : Option Point :=
  let n := toNat b
  let y := n % (1 <<< 255) % prime
  let square := Modular.sub prime (y * y) 1 *
    Modular.inverse prime ((constant * (y * y % prime) + 1) % prime) % prime
  if b.length ≠ 32 then none
  else (root? square).map fun x =>
    if x % 2 = n >>> 255 then ⟨x, y⟩ else ⟨Modular.sub prime 0 x, y⟩

end Point

/-- A public key: the `octets` of a point. -/
structure PublicKey where
  octets : Bytes
  /-- The `octets` spell a point. -/
  valid : (Point.ofOctets? octets).isSome = true
deriving DecidableEq

namespace PublicKey

/-- The key with the octets `b`. -/
def ofOctets? (b : Bytes) : Option PublicKey :=
  if h : (Point.ofOctets? b).isSome = true then some ⟨b, h⟩ else none

/-- The point that the octets of `k` spell. -/
def point (k : PublicKey) : Point := (Point.ofOctets? k.octets).get k.valid

end PublicKey

/-- The scalar that ties a signature to its first point `r`, a `key` and a `message`. -/
def challenge (r : Bytes) (key : PublicKey) (message : Bytes) : Nat :=
  toNat (Digest.sha512.hash (r ++ key.octets ++ message)) % order

/-- The octets `signature` are a signature of the `message`: the octets of a point, which are
compared as they stand, and a reduced scalar. -/
def PublicKey.verify (k : PublicKey) (message signature : Bytes) : Bool :=
  let r := signature.take 32
  let s := toNat (signature.drop 32)
  signature.length == 64 && s < order &&
    (Point.add (.multiple s .base) (.multiple (challenge r k message) k.point.neg)).octets == r

/-- A private key: a `seed` with the public key that follows from it. -/
structure PrivateKey where
  seed : Bytes
  publicKey : PublicKey

namespace PrivateKey

/-- The scalar of a `seed`: half of its digest, a multiple of 8 with bit 254 as its highest. -/
def scalarOf (seed : Bytes) : Nat :=
  toNat ((Digest.sha512.hash seed).take 32) % (1 <<< 254) / 8 * 8 + (1 <<< 254)

/-- The key with a `seed` of 32 octets. -/
def ofSeed? (seed : Bytes) : Option PrivateKey :=
  if seed.length ≠ 32 then none
  else (PublicKey.ofOctets? (Point.multiple (scalarOf seed) .base).octets).map fun k => ⟨seed, k⟩

/-- The signature of a `message`. -/
def sign (k : PrivateKey) (message : Bytes) : Bytes :=
  let nonce := toNat (Digest.sha512.hash ((Digest.sha512.hash k.seed).drop 32 ++ message)) % order
  let r := (Point.multiple nonce .base).octets
  r ++ ofNat ((nonce + challenge r k.publicKey message * scalarOf k.seed) % order)

end PrivateKey

end Pkix.Ed25519
