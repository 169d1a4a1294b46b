import Pkix.Bytes

/-!
# Numbers as octets, most significant first

* `BigEndian.toNat`/`BigEndian.ofNat`: unsigned numbers in as few octets as possible (none for
  zero); `BigEndian.ofNatWidth` fills a given number of octets.
* `BigEndian.toInt`/`BigEndian.ofInt`: two's complement in as few octets as possible, at least
  one. `BigEndian.isMinimal` says which octets `ofInt` can write.
-/

namespace Pkix.BigEndian

/-- The number whose digits to the base 256 are `b`. -/
def toNat (b : Bytes) : Nat := b.foldl (fun n x => n * 256 + x.toNat) 0

/-- The digits of `n` to the base 256, none for zero. -/
def ofNat (n : Nat) : Bytes :=
  if n = 0 then [] else ofNat (n / 256) ++ [UInt8.ofNat n]
termination_by n
decreasing_by omega

/-- The `width` lowest digits of `n` to the base 256. -/
def ofNatWidth : Nat → Nat → Bytes
  | 0, _ => []
  | width + 1, n => ofNatWidth width (n / 256) ++ [UInt8.ofNat n]

/-- The two's complement of a natural number: its digits, after a zero octet where the first
of them would read as a sign. -/
def ofNonneg (n : Nat) : Bytes :=
  match ofNat n with
  | [] => [0]
  | x :: xs => if x < 0x80 then x :: xs else 0 :: x :: xs

/-- The two's complement of `n` in as few octets as possible. The octets of `-1 - m` are those
of `m` with every bit inverted. -/
def ofInt : Int → Bytes
  | .ofNat n => ofNonneg n
  | .negSucc n => (ofNonneg n).map (~~~ ·)

/-- The number of which `b` is a two's complement; the first octet carries the sign. Where it is
negative, the octets with every bit inverted are those of `m` in `-1 - m`. -/
def toInt (b : Bytes) : Int :=
  match b with
  | [] => 0
  | x :: xs =>
    if x < 0x80 then .ofNat (toNat (x :: xs)) else .negSucc (toNat ((x :: xs).map (~~~ ·)))

/-- No octet can be left out: the first one is neither an idle zero nor an idle sign. -/
def isMinimal : Bytes → Bool
  | [] => false
  | [_] => true
  | x :: y :: _ => !(x == 0 && y < 0x80) && !(x == 0xFF && 0x80 ≤ y)

theorem length_ofNatWidth (width n : Nat) : (ofNatWidth width n).length = width := by
  induction width generalizing n with
  | zero => rfl
  | succ w ih => simp [ofNatWidth, ih]

end Pkix.BigEndian
