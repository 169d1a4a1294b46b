import Pkix.Algorithm.Signature
import Pkix.Modular

/-!
# RSA signatures

Signatures of PKCS #1 version 1.5: the digest and the name of its algorithm fill, behind a run of
ones, a number as long as the modulus, and the signature is a root of that number.

* `Rsa.PublicKey`, `Rsa.PrivateKey`: keys, with the rules that their numbers obey.
* `Rsa.pad`: the octets that are signed.
* `Rsa.PrivateKey.sign`, `Rsa.PublicKey.verify`.
-/

namespace Pkix.Rsa

open Der

/-- The two numbers form a public key: an odd `modulus` and an odd `exponent` below it, of at least
2 and less than 34 bits. -/
def PublicKey.wellFormed (modulus exponent : Nat) : Bool :=
  exponent < modulus && modulus % 2 == 1 && exponent % 2 == 1 && 2 ≤ exponent &&
    exponent < 1 <<< 33

/-- A public key. -/
structure PublicKey where
  modulus : Nat
  exponent : Nat
  /-- The numbers obey the rules of public keys. -/
  valid : PublicKey.wellFormed modulus exponent = true
deriving DecidableEq

/-- The numbers belong together: the factors `p` and `q` make the modulus, and raising to one
exponent undoes raising to the other in the multiples of either factor. -/
def PrivateKey.consistent (publicKey : PublicKey) (exponent p q : Nat) : Bool :=
  1 < p && 1 < q && p * q == publicKey.modulus && 0 < exponent &&
    (exponent * publicKey.exponent - 1) % (p - 1) == 0 &&
    (exponent * publicKey.exponent - 1) % (q - 1) == 0

/-- A private key with the two factors of its modulus, `p` and `q`. -/
structure PrivateKey where
  publicKey : PublicKey
  exponent : Nat
  p : Nat
  q : Nat
  /-- The numbers belong together. -/
  valid : PrivateKey.consistent publicKey exponent p q = true

/-- The octets of a digest `value` with the name of its algorithm. -/
def digestInfo (digest : Digest) (value : Bytes) : Bytes :=
  Write.element Tag.sequence (digest.algorithm.octets ++ Write.octetString value)

/-- The octets that are signed for a digest `value`: a block of the given `length` that starts with
zero and one, goes on with at least eight octets of ones and a zero, and ends with the digest. -/
def pad (length : Nat) (digest : Digest) (value : Bytes) : Option Bytes :=
  let info := digestInfo digest value
  if length < info.length + 11 then none
  else some ([0, 1] ++ List.replicate (length - info.length - 3) 0xFF ++ [0] ++ info)

namespace PublicKey

/-- The key with the given `modulus` and `exponent`. -/
def new? (modulus exponent : Nat) : Option PublicKey :=
  if h : wellFormed modulus exponent = true then some ⟨modulus, exponent, h⟩ else none

/-- The key with the given `modulus` and `exponent`, as it is taken from others: its modulus has at
most 4096 bits. The modulus of a private key is not bounded. -/
def new (modulus exponent : Nat) : Except Error PublicKey :=
  match new? modulus exponent with
  | some k => if modulus < 1 <<< 4096 then .ok k else .error .rsa
  | none => .error .rsa

/-- The number of octets of the modulus of `k` and of every signature. -/
def length (k : PublicKey) : Nat := (BigEndian.ofNat k.modulus).length

/-- The encoding of the two numbers of `k`. -/
def octets (k : PublicKey) : Bytes :=
  Write.element Tag.sequence (Write.integer k.modulus ++ Write.integer k.exponent)

/-- The number that has `s` as a root. -/
def raise (k : PublicKey) (s : Nat) : Nat := Modular.pow k.modulus s k.exponent

/-- The `signature` is as long as the modulus, below it, and a root of the octets that are signed
for the digest `value`. -/
def verify (k : PublicKey) (digest : Digest) (value signature : Bytes) : Bool :=
  let s := BigEndian.toNat signature
  signature.length == k.length && s < k.modulus &&
    pad k.length digest value == some (BigEndian.ofNatWidth k.length (k.raise s))

end PublicKey

namespace PrivateKey

/-- The key with the given `exponent` and factors, `p` and `q`. -/
def new? (publicKey : PublicKey) (exponent p q : Nat) : Option PrivateKey :=
  if h : consistent publicKey exponent p q = true then some ⟨publicKey, exponent, p, q, h⟩
  else none

/-- The exponent of `k` modulo the first factor. -/
def exponentP (k : PrivateKey) : Nat := k.exponent % (k.p - 1)

/-- The exponent of `k` modulo the second factor. -/
def exponentQ (k : PrivateKey) : Nat := k.exponent % (k.q - 1)

/-- The inverse of the second factor of `k` modulo the first, if they are coprime. -/
def coefficient? (k : PrivateKey) : Option Nat := Modular.inverse? k.p k.q

/-- A root of `n` modulo the product, from roots modulo the factors where they are coprime. -/
def root (k : PrivateKey) (n : Nat) : Nat :=
  match k.coefficient? with
  | none => Modular.pow k.publicKey.modulus n k.exponent
  | some coefficient =>
    let rp := Modular.pow k.p n k.exponentP
    let rq := Modular.pow k.q n k.exponentQ
    rq + k.q * (coefficient * Modular.sub k.p rp rq % k.p)

/-- The signature of a digest `value`. A root that does not lead back is not given out. -/
def sign (k : PrivateKey) (digest : Digest) (value : Bytes) : Except Error Bytes :=
  match pad k.publicKey.length digest value with
  | none => .error .rsa
  | some block =>
    let n := BigEndian.toNat block
    let s := k.root n
    if k.publicKey.raise s = n then .ok (BigEndian.ofNatWidth k.publicKey.length s)
    else .error .rsa

end PrivateKey

end Pkix.Rsa
