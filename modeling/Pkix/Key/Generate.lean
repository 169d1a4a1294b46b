import Pkix.Key.Private

/-!
# New keys

Keys are made from a seed that the caller has to draw at random: the same seed makes the same key.
The seed is stretched with SHA-512 into as many octets as it takes.

* `PrivateKey.generate`: a new key of a kind.
* `Prime.isProbable`: the test of Miller and Rabin that the factors of RSA keys have to pass.
-/

namespace Pkix

/-- A supply of octets that follow from a `seed`. -/
structure Entropy where
  seed : Bytes
  /-- How many blocks have been taken. -/
  taken : Nat

namespace Entropy

/-- Octets of `e` that have not been given out before. -/
def draw (e : Entropy) : Nat → Bytes × Entropy
  | 0 => ([], e)
  | blocks + 1 =>
    let block := Digest.sha512.hash (e.seed ++ BigEndian.ofNatWidth 8 e.taken)
    let (rest, e) := draw ⟨e.seed, e.taken + 1⟩ blocks
    (block ++ rest, e)

/-- A number below the power of two with the exponent `bits`. -/
def number (e : Entropy) (bits : Nat) : Nat × Entropy :=
  let (b, e) := e.draw (bits / 512 + 1)
  (BigEndian.toNat b % (1 <<< bits), e)

end Entropy

namespace Prime

/-- How often 2 divides a number `n`, up to a bound, and what is left of it. -/
def halve (n : Nat) : Nat → Nat × Nat
  | 0 => (0, n)
  | bound + 1 =>
    if n % 2 = 1 then (0, n)
    else
      let (count, odd) := halve (n / 2) bound
      (count + 1, odd)

/-- One of so many squares of `x` modulo `n`, `x` itself the first, is -1. -/
def reachesMinusOne (n x : Nat) : Nat → Bool
  | 0 => false
  | squares + 1 => x == n - 1 || reachesMinusOne n (x * x % n) squares

/-- The base `b` does not show that the odd number `n` is composite. -/
def passes (n b : Nat) : Bool :=
  let (count, odd) := halve (n - 1) (n.log2 + 1)
  let x := Modular.pow n (b % n) odd
  b % n == 0 || x == 1 || reachesMinusOne n x count

/-- The primes that are tried as divisors and as bases. -/
def small : List Nat :=
  [2, 3, 5, 7, 11, 13, 17, 19, 23, 29, 31, 37, 41, 43, 47, 53, 59, 61, 67, 71, 73, 79, 83, 89, 97]

/-- A number that is composite passes for fewer than one in 4²⁵ choices. -/
def isProbable (n : Nat) : Bool :=
  small.contains n ||
    (2 ≤ n && small.all (fun p => n % p != 0) && small.all (passes n))

/-- The first of so many random odd numbers with so many `bits`, the two highest of which are set,
that passes for a prime, is 1 more than no multiple of `e`, and is not `other`. -/
def search (bits e other : Nat) (entropy : Entropy) : Nat → Option (Nat × Entropy)
  | 0 => none
  | tries + 1 =>
    let (n, entropy) := entropy.number (bits - 2)
    let n := 3 <<< (bits - 2) + n / 2 * 2 + 1
    if (n - 1) % e ≠ 0 ∧ n ≠ other ∧ isProbable n then some (n, entropy)
    else search bits e other entropy tries

end Prime

/-- What a new key is for. -/
inductive KeyKind
  /-- An RSA key with a modulus of so many `bits`. -/
  | rsa (bits : Nat)
  | ecdsa (curve : Curve)
  | ed25519
deriving DecidableEq, Repr

namespace PrivateKey

/-- The exponent of new RSA keys. -/
def newExponent : Nat := 65537

/-- An RSA key with a modulus of so many `bits`, which has to exceed the exponent. -/
def generateRsa? (bits : Nat) (e : Entropy) : Option PrivateKey := do
  if bits < 17 then none
  let (p, e) ← Prime.search (bits - bits / 2) newExponent 0 e (100 * bits)
  let (q, _) ← Prime.search (bits / 2) newExponent p e (100 * bits)
  let exponent ← Modular.inverse? ((p - 1) * (q - 1)) newExponent
  let publicKey ← Rsa.PublicKey.new? (p * q) newExponent
  return .rsa (← Rsa.PrivateKey.new? publicKey exponent p q)

/-- A new key of a `kind` from a `seed`. -/
def generate (kind : KeyKind) (seed : Bytes) : Except Error PrivateKey :=
  let entropy : Entropy := ⟨seed, 0⟩
  let key := match kind with
    | .rsa bits => generateRsa? bits entropy
    | .ecdsa curve =>
      (Ecdsa.PrivateKey.new? curve
        ((entropy.number (8 * curve.size + 64)).1 % (curve.order - 1) + 1)).map .ecdsa
    | .ed25519 => (Ed25519.PrivateKey.ofSeed? ((entropy.draw 1).1.take 32)).map .ed25519
  key.elim (.error .keyGeneration) .ok

end PrivateKey

end Pkix
