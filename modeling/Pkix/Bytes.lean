/-!
# Octet strings and texts

`Bytes` is the type of every encoding in the library. It is a list, so that a decoder is a
function by cases on what comes next and a proof about it an induction.

* `Bytes.toHex`/`Bytes.ofHex?`: the lower-case hexadecimal text of octets, and the octets a
  hexadecimal text of either case stands for.
* `Bytes.cmp`: lexicographic order, a proper beginning of a string before the string.
* `chunks`: a list in pieces of a fixed length, the last one possibly shorter.
* `Text.hex`: a number in lower-case hexadecimal digits.
* `Text.words`, `Text.normalize`: texts compared without regard to how many blanks stand where.
-/

namespace Pkix

/-- A string of octets. -/
abbrev Bytes := List UInt8

namespace Bytes

/-- The hexadecimal digit of a number `n` below 16. -/
def hexDigit (n : Nat) : Char :=
  if n < 10 then Char.ofNat (n + 48) else Char.ofNat (n + 87)

/-- The value of a hexadecimal digit `c` of either case. -/
def hexValue? (c : Char) : Option Nat :=
  if '0' ≤ c ∧ c ≤ '9' then some (c.toNat - 48)
  else if 'a' ≤ c ∧ c ≤ 'f' then some (c.toNat - 87)
  else if 'A' ≤ c ∧ c ≤ 'F' then some (c.toNat - 55)
  else none

/-- Two lower-case hexadecimal digits for every octet of `b`. -/
def toHex (b : Bytes) : String :=
  String.ofList (b.flatMap fun x => [hexDigit (x.toNat / 16), hexDigit (x.toNat % 16)])

/-- Reads pairs of hexadecimal digits onto the octets `done`, which are in reverse. -/
def ofHexPairs? : List Char → Bytes → Option Bytes
  | [], done => some done.reverse
  | [_], _ => none
  | hi :: lo :: rest, done =>
    match hexValue? hi, hexValue? lo with
    | some h, some l => ofHexPairs? rest (UInt8.ofNat (h * 16 + l) :: done)
    | _, _ => none

/-- The octets that a text `s` of hexadecimal digit pairs stands for. -/
def ofHex? (s : String) : Option Bytes := ofHexPairs? s.toList []

/-- The octets of the UTF-8 form of a text `s`. -/
def ofString (s : String) : Bytes := s.toUTF8.data.toList

/-- The text of which `b` is the UTF-8 form, if there is one. -/
def toString? (b : Bytes) : Option String := String.fromUTF8? ⟨b.toArray⟩

/-- The lexicographic order of octets, each compared by `compare`. -/
def cmp : Bytes → Bytes → Ordering
  | [], [] => .eq
  | [], _ :: _ => .lt
  | _ :: _, [] => .gt
  | x :: xs, y :: ys => (compare x y).then (cmp xs ys)

end Bytes

theorem octet_lt_0x80 {x : UInt8} : x < 0x80 ↔ x.toNat < 128 := UInt8.lt_iff_toNat_lt

theorem octet_eq_0x80 {x : UInt8} : x = 0x80 ↔ x.toNat = 128 := UInt8.toNat_inj.symm

theorem octet_eq_zero {x : UInt8} : x = 0 ↔ x.toNat = 0 := UInt8.toNat_inj.symm

/-- The list `xs` in pieces of `n` elements, the last one possibly shorter; none for `n = 0`. -/
def chunks {α : Type} (n : Nat) (xs : List α) : List (List α) :=
  if n = 0 ∨ xs = [] then [] else xs.take n :: chunks n (xs.drop n)
termination_by xs.length
decreasing_by
  have h : ¬(n = 0 ∨ xs = []) := ‹_›
  have hpos : 0 < xs.length := List.length_pos_iff.mpr fun e => h (.inr e)
  have hn : n ≠ 0 := fun e => h (.inl e)
  simp only [List.length_drop]
  omega

/-! ## Texts -/

namespace Text

/-- The hexadecimal digits of an integer. -/
def hex : Int → String
  | .ofNat n => String.ofList (Nat.toDigits 16 n)
  | .negSucc n => "-" ++ String.ofList (Nat.toDigits 16 (n + 1))

/-- The character `c` has the property White_Space. -/
def isBlank (c : Char) : Bool :=
  let n := c.toNat
  (9 ≤ n && n ≤ 13) || n == 32 || n == 0x85 || n == 0xA0 || n == 0x1680 ||
    (0x2000 ≤ n && n ≤ 0x200A) || n == 0x2028 || n == 0x2029 || n == 0x202F || n == 0x205F ||
    n == 0x3000

/-- The stretches of characters of `cs` between blanks, none of them empty. -/
def words (cs : List Char) : List (List Char) := (cs.splitOnP isBlank).filter (· ≠ [])

/-- The words of a text `s` with one space between two of them, and ASCII letters in lower case. -/
def normalize (s : String) : List Char := ([' '].intercalate (words s.toList)).map Char.toLower

end Text

end Pkix
