import Pkix.Bytes

/-!
# Base 64

Three octets are four characters of the standard alphabet; one or two octets at the end are filled
up with `=`. The reader takes only what the writer produces: padding is required, and the bits that
belong to no octet are zero.
-/

namespace Pkix.Base64

/-- The character for a number `n` below 64. -/
def digit (n : Nat) : Char :=
  if n < 26 then Char.ofNat (n + 65)
  else if n < 52 then Char.ofNat (n + 71)
  else if n < 62 then Char.ofNat (n - 4)
  else if n = 62 then '+'
  else '/'

/-- The number for a character `c`. -/
def value? (c : Char) : Option Nat :=
  if 'A' ≤ c ∧ c ≤ 'Z' then some (c.toNat - 65)
  else if 'a' ≤ c ∧ c ≤ 'z' then some (c.toNat - 71)
  else if '0' ≤ c ∧ c ≤ '9' then some (c.toNat + 4)
  else if c = '+' then some 62
  else if c = '/' then some 63
  else none

/-- Four characters, each a `digit` or a pad, for one to three octets. -/
def encodeGroup : Bytes → List Char
  | [a, b, c] =>
    let n := (a.toNat * 256 + b.toNat) * 256 + c.toNat
    [digit (n / 64 / 64 / 64), digit (n / 64 / 64 % 64), digit (n / 64 % 64), digit (n % 64)]
  | [a, b] =>
    let n := (a.toNat * 256 + b.toNat) * 4
    [digit (n / 64 / 64), digit (n / 64 % 64), digit (n % 64), '=']
  | [a] =>
    let n := a.toNat * 16
    [digit (n / 64), digit (n % 64), '=', '=']
  | _ => []

/-- The characters for the octets `b`. -/
def encode (b : Bytes) : List Char := (chunks 3 b).flatMap encodeGroup

/-- The octets of the last four characters, of which `c` and `d` may be padding. -/
def decodeLast? (a b c d : Char) : Option Bytes := do
  let x ← value? a
  let y ← value? b
  if c = '=' then
    if d = '=' ∧ y % 16 = 0 then some [UInt8.ofNat (x * 4 + y / 16)] else none
  else
    let z ← value? c
    if d = '=' then
      if z % 4 = 0 then some [UInt8.ofNat (x * 4 + y / 16), UInt8.ofNat (y * 16 + z / 4)] else none
    else
      let w ← value? d
      some [UInt8.ofNat (x * 4 + y / 16), UInt8.ofNat (y * 16 + z / 4), UInt8.ofNat (z * 64 + w)]

/-- Reads groups of four characters onto the octets `done`, which are in reverse. Only the last
group may be padded. -/
def decodeFrom? : List Char → Bytes → Option Bytes
  | [], done => some done.reverse
  | [a, b, c, d], done => (decodeLast? a b c d).map fun last => done.reverse ++ last
  | a :: b :: c :: d :: rest, done =>
    if d = '=' then none
    else (decodeLast? a b c d).bind fun group => decodeFrom? rest (group.reverse ++ done)
  | _, _ => none

/-- The octets that the characters `cs` stand for. -/
def decode? (cs : List Char) : Option Bytes := decodeFrom? cs []

end Pkix.Base64
