import Pkix.Curve
import Pkix.Der.Primitive
import Pkix.Der.Reader
import Pkix.Der.Write
import Pkix.Digest

/-!
# ECDSA

Signatures with the curves of `Curve`. The number that serves one signature only is derived from the
key and the digest after RFC 6979, with the digest of the curve, so that signing is a function. The
digest goes into the derivation as it stands, without being reduced by the order.

* `Ecdsa.PublicKey`: a point, in the three spellings of SEC 1.
* `Ecdsa.PrivateKey`: a scalar with its public key.
* `Ecdsa.Signature`: two numbers below the order of the curve.
-/

namespace Pkix.Ecdsa

open Der

/-- A public key: a point of a `curve`, not the one at infinity. -/
structure PublicKey where
  curve : Curve
  x : Nat
  y : Nat
  /-- The point lies on the `curve`. -/
  valid : curve.contains x y = true
deriving DecidableEq

namespace PublicKey

/-- The key with the coordinates `x` and `y`. -/
def new? (curve : Curve) (x y : Nat) : Option PublicKey :=
  if h : curve.contains x y = true then some ⟨curve, x, y, h⟩ else none

/-- The key that a point of the `curve` is. -/
def ofPoint? (curve : Curve) : Curve.Point → Option PublicKey
  | .infinity => none
  | .affine x y => new? curve x y

/-- The point of `k`. -/
def point (k : PublicKey) : Curve.Point := .affine k.x k.y

/-- Both coordinates of `k`. -/
def uncompressed (k : PublicKey) : Bytes :=
  0x04 :: (BigEndian.ofNatWidth k.curve.size k.x ++ BigEndian.ofNatWidth k.curve.size k.y)

/-- The first coordinate of `k` and whether the second one is odd. -/
def compressed (k : PublicKey) : Bytes :=
  UInt8.ofNat (2 + k.y % 2) :: BigEndian.ofNatWidth k.curve.size k.x

/-- The key with a first coordinate `x`, and of its two second coordinates the one that `choose`
picks. -/
def lift? (curve : Curve) (x : Nat) (choose : Nat → Nat → Nat) : Option PublicKey :=
  match curve.lift? x with
  | none => none
  | some y => new? curve x (choose y (curve.prime - y))

/-- The key that octets spell: both coordinates after 4, or the first one after 2 and 3, where the
second one is even and odd, or after 5, where it is the lesser one. -/
def ofOctets? (curve : Curve) : Bytes → Option PublicKey
  | [] => none
  | form :: b =>
    let n := curve.size
    if form = 0x04 ∧ b.length = 2 * n then
      new? curve (BigEndian.toNat (b.take n)) (BigEndian.toNat (b.drop n))
    else if b.length ≠ n then none
    else
      let x := BigEndian.toNat b
      if form = 0x02 then lift? curve x fun y z => if y % 2 = 0 then y else z
      else if form = 0x03 then lift? curve x fun y z => if y % 2 = 1 then y else z
      else if form = 0x05 then lift? curve x min
      else none

end PublicKey

/-- A private key. -/
structure PrivateKey where
  publicKey : PublicKey
  scalar : Nat
  /-- The `scalar` counts the points up to the public key. -/
  valid : (0 < scalar && scalar < publicKey.curve.order) = true

/-- The key with a `scalar`. -/
def PrivateKey.new? (curve : Curve) (scalar : Nat) : Option PrivateKey :=
  match PublicKey.ofPoint? curve (.multiple curve scalar curve.base) with
  | none => none
  | some k =>
    if h : (0 < scalar && scalar < k.curve.order) = true then some ⟨k, scalar, h⟩ else none

/-- The two numbers of a signature, `r` and `s`. -/
structure Signature where
  r : Nat
  s : Nat
deriving DecidableEq, Repr

/-- The encoding of a signature `s`. -/
def Signature.octets (s : Signature) : Bytes :=
  Write.element Tag.sequence (Write.integer s.r ++ Write.integer s.s)

/-- The signature that the octets `b` encode, if its numbers are in range. -/
def Signature.ofOctets? (curve : Curve) (b : Bytes) : Option Signature := do
  let (r, s) ← Reader.whole (Reader.next (Reader.sequence do
    return (← Reader.next Reader.natural, ← Reader.next Reader.natural))) b
  if 0 < r ∧ r < curve.order ∧ 0 < s ∧ s < curve.order then some ⟨r, s⟩ else none

/-- The number that stands for a digest `value`, filled up with zeros in front or cut off behind to
the size of the `curve`. Less than half of that size is too short. -/
def representative? (curve : Curve) (value : Bytes) : Option Nat :=
  if 2 * value.length < curve.size then none else some (BigEndian.toNat (value.take curve.size))

/-- The state of the generator of RFC 6979. -/
structure Generator where
  key : Bytes
  value : Bytes

namespace Generator

/-- The keyed digest of a `curve`. -/
def mac (curve : Curve) (key message : Bytes) : Bytes :=
  Digest.hmac curve.digest.hash (if curve = .p256 then 64 else 128) key message

/-- Mixes octets `b` into the state `g`. -/
def mix (curve : Curve) (g : Generator) (b : Bytes) : Generator :=
  let key := mac curve g.key (g.value ++ b)
  ⟨key, mac curve key g.value⟩

/-- The state for a `scalar` and the number `n` that is signed, which is not reduced by the
order. -/
def start (curve : Curve) (scalar n : Nat) : Generator :=
  let seed := BigEndian.ofNatWidth curve.size scalar ++ BigEndian.ofNatWidth curve.size n
  let g : Generator := ⟨List.replicate curve.size 0, List.replicate curve.size 1⟩
  (g.mix curve (0 :: seed)).mix curve (1 :: seed)

/-- The next number of the generator `g`. The digest of a `curve` is as long as a scalar. -/
def next (curve : Curve) (g : Generator) : Nat × Generator :=
  let value := mac curve g.key g.value
  (BigEndian.toNat value, mix curve ⟨g.key, value⟩ [0])

end Generator

/-- The signature with the given `nonce`, which some nonces do not have. -/
def signWith (k : PrivateKey) (n nonce : Nat) : Option Signature :=
  let curve := k.publicKey.curve
  match Curve.Point.multiple curve nonce curve.base with
  | .infinity => none
  | .affine x _ =>
    let r := x % curve.order
    let s := Modular.inverse curve.order nonce * (n + r * k.scalar) % curve.order
    if nonce < curve.order ∧ r ≠ 0 ∧ s ≠ 0 then some ⟨r, s⟩ else none

/-- The signature with the first nonce that has one, of so many (`tries`) from the generator `g`. -/
def signFrom (k : PrivateKey) (n : Nat) (g : Generator) : Nat → Option Signature
  | 0 => none
  | tries + 1 =>
    let (nonce, g) := g.next k.publicKey.curve
    match signWith k n nonce with
    | some s => some s
    | none => signFrom k n g tries

/-- The signature of a digest `value`. Fewer than one nonce in 2³¹ has none. -/
def sign (k : PrivateKey) (value : Bytes) : Except Error Bytes :=
  let curve := k.publicKey.curve
  match (representative? curve value).bind fun n =>
      signFrom k n (Generator.start curve k.scalar n) 64 with
  | some s => .ok s.octets
  | none => .error (.signature .unusable)

/-- The equation of a signature `s` holds for a number `n`. -/
def holds (k : PublicKey) (n : Nat) (s : Signature) : Bool :=
  let curve := k.curve
  let w := Modular.inverse curve.order s.s
  let sum := Curve.Point.add curve
    (.multiple curve (n * w % curve.order) curve.base)
    (.multiple curve (s.r * w % curve.order) k.point)
  match sum with
  | .infinity => false
  | .affine x _ => x % curve.order == s.r

/-- The octets `signature` are a signature of the digest `value`. -/
def verify (k : PublicKey) (value signature : Bytes) : Bool :=
  match representative? k.curve value, Signature.ofOctets? k.curve signature with
  | some n, some s => holds k n s
  | _, _ => false

end Pkix.Ecdsa
