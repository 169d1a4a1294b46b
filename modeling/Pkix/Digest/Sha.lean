import Pkix.BigEndian

/-!
# The secure hash algorithms

The digests of FIPS 180-4. A message is filled up to whole blocks with a one bit, zeros and its
length in bits; the blocks then change a state one after the other. Words are natural numbers below
a power of two.

* `Sha1.hash`: the digest of 160 bits.
* `Sha2.hash224`, `Sha2.hash256`, `Sha2.hash384`, `Sha2.hash512`: one function of two word lengths.
  Its constants are the first bits of the fractions of the cube roots of the primes; those of the
  shorter word length are the upper halves of those of the longer one.
-/

namespace Pkix.Digest

/-- What follows a message of `size` octets to fill whole blocks: a one bit, zeros, and the number
of bits in `lengthOctets` octets. -/
def padding (block lengthOctets size : Nat) : Bytes :=
  let zeros := (block - (size + 1 + lengthOctets) % block) % block
  0x80 :: List.replicate zeros 0 ++ BigEndian.ofNatWidth lengthOctets (size * 8)

/-- The blocks of a `message` with its padding. -/
def blocks (block lengthOctets : Nat) (message : Bytes) : List Bytes :=
  chunks block (message ++ padding block lengthOctets message.length)

/-- The words of so many `octets` that fill a `block`. -/
def words (octets : Nat) (block : Bytes) : List Nat := (chunks octets block).map BigEndian.toNat

/-- The `bits` lowest bits of a number `n`. -/
def lowest (bits n : Nat) : Nat := n % (1 <<< bits)

/-- A word of `bits` bits with its `n` lowest bits moved to the top. -/
def rotateRight (bits n word : Nat) : Nat :=
  word >>> n ||| lowest bits (word <<< (bits - n))

/-- A word of `bits` bits with its `n` highest bits moved to the bottom. -/
def rotateLeft (bits n word : Nat) : Nat := rotateRight bits (bits - n) word

/-- A word of `bits` bits with every bit inverted. -/
def invert (bits word : Nat) : Nat := (1 <<< bits) - 1 - word

/-! ## SHA-1 -/

namespace Sha1

/-- The five words that a block changes. -/
structure State where
  a : Nat
  b : Nat
  c : Nat
  d : Nat
  e : Nat

/-- The state before the first block. -/
def start : State := ⟨0x67452301, 0xEFCDAB89, 0x98BADCFE, 0x10325476, 0xC3D2E1F0⟩

/-- The function of `b`, `c` and `d` and the constant of the four stages of twenty rounds. -/
def stage (round : Nat) (b c d : Nat) : Nat × Nat :=
  if round < 20 then ((b &&& c) ^^^ (invert 32 b &&& d), 0x5A827999)
  else if round < 40 then (b ^^^ c ^^^ d, 0x6ED9EBA1)
  else if round < 60 then ((b &&& c) ^^^ (b &&& d) ^^^ (c &&& d), 0x8F1BBCDC)
  else (b ^^^ c ^^^ d, 0xCA62C1D6)

/-- One round: the state `s` takes in the first word of the `window`, and the window moves on. -/
def round (s : State) (window : List Nat) (n : Nat) : State × List Nat :=
  let w := window.getD 0 0
  let (f, k) := stage n s.b s.c s.d
  let next := rotateLeft 32 1
    (window.getD 13 0 ^^^ window.getD 8 0 ^^^ window.getD 2 0 ^^^ window.getD 0 0)
  (⟨lowest 32 (rotateLeft 32 5 s.a + f + s.e + k + w), s.a, rotateLeft 32 30 s.b, s.c, s.d⟩,
    window.tail ++ [next])

/-- The state after `s` and a `block`. -/
def compress (s : State) (block : Bytes) : State :=
  let (t, _) := (List.range 80).foldl (fun (t, window) n => round t window n) (s, words 4 block)
  ⟨lowest 32 (s.a + t.a), lowest 32 (s.b + t.b), lowest 32 (s.c + t.c), lowest 32 (s.d + t.d),
    lowest 32 (s.e + t.e)⟩

/-- The digest of a `message`. -/
def hash (message : Bytes) : Bytes :=
  let s := (blocks 64 8 message).foldl compress start
  [s.a, s.b, s.c, s.d, s.e].flatMap (BigEndian.ofNatWidth 4)

end Sha1

/-! ## SHA-2 -/

namespace Sha2

/-- The first 64 bits of the fractions of the cube roots of the first 80 primes. -/
def cubeRoots : List Nat := [
  0x428A2F98D728AE22, 0x7137449123EF65CD, 0xB5C0FBCFEC4D3B2F, 0xE9B5DBA58189DBBC,
  0x3956C25BF348B538, 0x59F111F1B605D019, 0x923F82A4AF194F9B, 0xAB1C5ED5DA6D8118,
  0xD807AA98A3030242, 0x12835B0145706FBE, 0x243185BE4EE4B28C, 0x550C7DC3D5FFB4E2,
  0x72BE5D74F27B896F, 0x80DEB1FE3B1696B1, 0x9BDC06A725C71235, 0xC19BF174CF692694,
  0xE49B69C19EF14AD2, 0xEFBE4786384F25E3, 0x0FC19DC68B8CD5B5, 0x240CA1CC77AC9C65,
  0x2DE92C6F592B0275, 0x4A7484AA6EA6E483, 0x5CB0A9DCBD41FBD4, 0x76F988DA831153B5,
  0x983E5152EE66DFAB, 0xA831C66D2DB43210, 0xB00327C898FB213F, 0xBF597FC7BEEF0EE4,
  0xC6E00BF33DA88FC2, 0xD5A79147930AA725, 0x06CA6351E003826F, 0x142929670A0E6E70,
  0x27B70A8546D22FFC, 0x2E1B21385C26C926, 0x4D2C6DFC5AC42AED, 0x53380D139D95B3DF,
  0x650A73548BAF63DE, 0x766A0ABB3C77B2A8, 0x81C2C92E47EDAEE6, 0x92722C851482353B,
  0xA2BFE8A14CF10364, 0xA81A664BBC423001, 0xC24B8B70D0F89791, 0xC76C51A30654BE30,
  0xD192E819D6EF5218, 0xD69906245565A910, 0xF40E35855771202A, 0x106AA07032BBD1B8,
  0x19A4C116B8D2D0C8, 0x1E376C085141AB53, 0x2748774CDF8EEB99, 0x34B0BCB5E19B48A8,
  0x391C0CB3C5C95A63, 0x4ED8AA4AE3418ACB, 0x5B9CCA4F7763E373, 0x682E6FF3D6B2B8A3,
  0x748F82EE5DEFB2FC, 0x78A5636F43172F60, 0x84C87814A1F0AB72, 0x8CC702081A6439EC,
  0x90BEFFFA23631E28, 0xA4506CEBDE82BDE9, 0xBEF9A3F7B2C67915, 0xC67178F2E372532B,
  0xCA273ECEEA26619C, 0xD186B8C721C0C207, 0xEADA7DD6CDE0EB1E, 0xF57D4F7FEE6ED178,
  0x06F067AA72176FBA, 0x0A637DC5A2C898A6, 0x113F9804BEF90DAE, 0x1B710B35131C471B,
  0x28DB77F523047D84, 0x32CAAB7B40C72493, 0x3C9EBE0A15C9BEBC, 0x431D67C49C100D4C,
  0x4CC5D4BECB3E42B6, 0x597F299CFC657E2A, 0x5FCB6FAB3AD6FAEC, 0x6C44198C4A475817]

/-- The first 64 bits of the fractions of the square roots of the first eight primes. -/
def squareRoots : List Nat := [
  0x6A09E667F3BCC908, 0xBB67AE8584CAA73B, 0x3C6EF372FE94F82B, 0xA54FF53A5F1D36F1,
  0x510E527FADE682D1, 0x9B05688C2B3E6C1F, 0x1F83D9ABFB41BD6B, 0x5BE0CD19137E2179]

/-- The first 64 bits of the fractions of the square roots of the ninth to sixteenth primes. -/
def laterSquareRoots : List Nat := [
  0xCBBB9D5DC1059ED8, 0x629A292A367CD507, 0x9159015A3070DD17, 0x152FECD8F70E5939,
  0x67332667FFC00B31, 0x8EB44A8768581511, 0xDB0C2E0D64F98FA7, 0x47B5481DBEFA4FA4]

/-- The function for one word length of `bits`. -/
structure Variant where
  /-- Bits of a word. -/
  bits : Nat
  /-- One constant for every round. -/
  constants : List Nat
  /-- Rotations of the functions that mix the state, as `mix` takes them. -/
  mixA : Nat × Nat × Nat
  mixE : Nat × Nat × Nat
  /-- Two rotations and a shift of the functions that `extend` the message. -/
  extend0 : Nat × Nat × Nat
  extend1 : Nat × Nat × Nat

/-- Words of 32 bits in 64 rounds. -/
def narrow : Variant where
  bits := 32
  constants := (cubeRoots.take 64).map (· >>> 32)
  mixA := (2, 13, 22)
  mixE := (6, 11, 25)
  extend0 := (7, 18, 3)
  extend1 := (17, 19, 10)

/-- Words of 64 bits in 80 rounds. -/
def wide : Variant where
  bits := 64
  constants := cubeRoots
  mixA := (28, 34, 39)
  mixE := (14, 18, 41)
  extend0 := (1, 8, 7)
  extend1 := (19, 61, 6)

/-- The eight words that a block changes. -/
structure State where
  a : Nat
  b : Nat
  c : Nat
  d : Nat
  e : Nat
  f : Nat
  g : Nat
  h : Nat

/-- The state with the given words `ws`. -/
def State.ofWords (ws : List Nat) : State :=
  ⟨ws.getD 0 0, ws.getD 1 0, ws.getD 2 0, ws.getD 3 0, ws.getD 4 0, ws.getD 5 0, ws.getD 6 0,
    ws.getD 7 0⟩

/-- The words of a state `s`. -/
def State.words (s : State) : List Nat := [s.a, s.b, s.c, s.d, s.e, s.f, s.g, s.h]

namespace Variant

/-- The sum of three rotations of `x`, without carries. -/
def mix (v : Variant) (by3 : Nat × Nat × Nat) (x : Nat) : Nat :=
  rotateRight v.bits by3.1 x ^^^ rotateRight v.bits by3.2.1 x ^^^ rotateRight v.bits by3.2.2 x

/-- The sum of two rotations and a shift of `x`, without carries. -/
def extend (v : Variant) (by3 : Nat × Nat × Nat) (x : Nat) : Nat :=
  rotateRight v.bits by3.1 x ^^^ rotateRight v.bits by3.2.1 x ^^^ x >>> by3.2.2

/-- One round: the state `s` takes in the constant `k` and the first word of the `window` of sixteen
words, and the window moves on. -/
def round (v : Variant) (s : State) (window : List Nat) (k : Nat) : State × List Nat :=
  let w := window.getD 0 0
  let choice := (s.e &&& s.f) ^^^ (invert v.bits s.e &&& s.g)
  let majority := (s.a &&& s.b) ^^^ (s.a &&& s.c) ^^^ (s.b &&& s.c)
  let t₁ := s.h + v.mix v.mixE s.e + choice + k + w
  let t₂ := v.mix v.mixA s.a + majority
  let next := lowest v.bits (v.extend v.extend1 (window.getD 14 0) + window.getD 9 0 +
    v.extend v.extend0 (window.getD 1 0) + w)
  (⟨lowest v.bits (t₁ + t₂), s.a, s.b, s.c, lowest v.bits (s.d + t₁), s.e, s.f, s.g⟩,
    window.tail ++ [next])

/-- The state after `s` and a `block`. -/
def compress (v : Variant) (s : State) (block : Bytes) : State :=
  let (t, _) := v.constants.foldl (fun (t, window) k => v.round t window k)
    (s, Digest.words (v.bits / 8) block)
  State.ofWords (List.zipWith (fun x y => lowest v.bits (x + y)) s.words t.words)

/-- The first `size` octets of the state after a `message` that starts from the words `start`. -/
def hash (v : Variant) (start : List Nat) (size : Nat) (message : Bytes) : Bytes :=
  let s := (blocks (v.bits * 2) (v.bits / 4) message).foldl v.compress (State.ofWords start)
  (s.words.flatMap (BigEndian.ofNatWidth (v.bits / 8))).take size

end Variant

/-- The digest of 224 bits, which starts from the lower halves of `laterSquareRoots`. -/
def hash224 : Bytes → Bytes := narrow.hash (laterSquareRoots.map (lowest 32)) 28

/-- The digest of 256 bits, which starts from the upper halves of `squareRoots`. -/
def hash256 : Bytes → Bytes := narrow.hash (squareRoots.map (· >>> 32)) 32

/-- The digest of 384 bits, which starts from `laterSquareRoots`. -/
def hash384 : Bytes → Bytes := wide.hash laterSquareRoots 48

/-- The digest of 512 bits, which starts from `squareRoots`. -/
def hash512 : Bytes → Bytes := wide.hash squareRoots 64

end Sha2

end Pkix.Digest
