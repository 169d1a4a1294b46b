import Pkix.BigEndian
import Pkix.Digest
import Pkix.Modular

/-!
# Elliptic curves of prime order

The points of the curves P-256 and P-384: the solutions of y² = x³ - 3x + b modulo a prime, and
a point at infinity. Every point but that one generates all of them.

* `Curve.Point.add`, `Curve.Point.multiple`: the group of a curve.
* `Curve.lift?`: the points with a given first coordinate.
-/

namespace Pkix

/-- The supported curves. -/
inductive Curve
  | p256
  | p384
deriving DecidableEq, Repr

namespace Curve

/-- The number of octets of a coordinate and of a scalar. -/
def size : Curve → Nat
  | p256 => 32
  | p384 => 48

/-- The prime modulo which coordinates are taken. -/
def prime : Curve → Nat
  | p256 => (1 <<< 256) - (1 <<< 224) + (1 <<< 192) + (1 <<< 96) - 1
  | p384 => (1 <<< 384) - (1 <<< 128) - (1 <<< 96) + (1 <<< 32) - 1

/-- The constant of the equation. -/
def constant : Curve → Nat
  | p256 => 0x5ac635d8aa3a93e7b3ebbd55769886bc651d06b0cc53b0f63bce3c3e27d2604b
  | p384 =>
    0xb3312fa7e23ee7e4988e056be3f82d19181d9c6efe814112 <<< 192 +
      0x0314088f5013875ac656398d8a2ed19d2a85c8edd3ec2aef

/-- The number of points. -/
def order : Curve → Nat
  | p256 => 0xffffffff00000000ffffffffffffffffbce6faada7179e84f3b9cac2fc632551
  | p384 =>
    0xffffffffffffffffffffffffffffffffffffffffffffffff <<< 192 +
      0xc7634d81f4372ddf581a0db248b0a77aecec196accc52973

/-- A point of a curve: one `affine` point or the one at `infinity`. -/
inductive Point
  | infinity
  | affine (x y : Nat)
deriving DecidableEq, Repr

/-- The point that scalars multiply. -/
def base : Curve → Point
  | p256 => .affine
      0x6b17d1f2e12c4247f8bce6e563a440f277037d812deb33a0f4a13945d898c296
      0x4fe342e2fe1a7f9b8ee7eb4a7c0f9e162bce33576b315ececbb6406837bf51f5
  | p384 => .affine
      (0xaa87ca22be8b05378eb1c71ef320ad746e1d3b628ba79b98 <<< 192 +
        0x59f741e082542a385502f25dbf55296c3a545e3872760ab7)
      (0x3617de4a96262c6f5d9e98bf9292dc29f8f41dbd289a147c <<< 192 +
        0xe9da3113b5f0b8c00a60b1ce1d7e819d7a431d7c90ea0e5f)

/-- The identifier of a curve. -/
def oid : Curve → Oid
  | p256 => Oid.secp256r1
  | p384 => Oid.secp384r1

/-- The curve with an identifier `o`. -/
def ofOid? (o : Oid) : Option Curve := [p256, p384].find? (·.oid == o)

/-- The digest that goes with a curve. -/
def digest : Curve → Digest
  | p256 => .sha256
  | p384 => .sha384

/-- The right-hand side of the equation of `c` at `x`. -/
def cubic (c : Curve) (x : Nat) : Nat :=
  (x * x % c.prime * x + Modular.sub c.prime c.constant (3 * x)) % c.prime

/-- The coordinates `x` and `y` are reduced and solve the equation of `c`. -/
def contains (c : Curve) (x y : Nat) : Bool :=
  x < c.prime && y < c.prime && y * y % c.prime == c.cubic x

/-- The second coordinate of a point of `c` with the first one `x`, if there is one. The prime is 3
modulo 4, so a square has the power below as a root. -/
def lift? (c : Curve) (x : Nat) : Option Nat :=
  let square := c.cubic x
  let y := Modular.pow c.prime square ((c.prime + 1) / 4)
  if x < c.prime ∧ y * y % c.prime = square then some y else none

namespace Point

/-- The inverse of the third point on the line with the given `slope` through the point at `x` and
`y` and one with first coordinate `u`. -/
def third (c : Curve) (slope x y u : Nat) : Point :=
  let w := Modular.sub c.prime (slope * slope) (x + u)
  affine w (Modular.sub c.prime (slope * Modular.sub c.prime x w) y)

/-- The sum of two points of `c`. -/
def add (c : Curve) : Point → Point → Point
  | infinity, q => q
  | p, infinity => p
  | affine x y, affine u v =>
    if x ≠ u then
      let slope := Modular.sub c.prime v y * Modular.inverse c.prime (Modular.sub c.prime u x)
      third c (slope % c.prime) x y u
    else if (y + v) % c.prime = 0 then infinity
    else
      let slope := Modular.sub c.prime (3 * x * x) 3 * Modular.inverse c.prime (2 * y)
      third c (slope % c.prime) x y u

/-- The sum of `n` times the same point `p`. -/
def multiple (c : Curve) (n : Nat) (p : Point) : Point :=
  if n = 0 then infinity
  else
    let half := multiple c (n / 2) p
    let double := add c half half
    if n % 2 = 1 then add c double p else double
termination_by n
decreasing_by omega

end Point

end Curve

end Pkix
