import Pkix.Bytes

/-!
# Numbers in groups of seven bits

Long tag numbers and the arcs of object identifiers are written to the base 128, most
significant group first, with the high bit set on every octet but the last. The writer uses as
few groups as possible; the reader refuses a number with an idle leading group (`0x80`), one
that does not end, and one that reaches a given bound.

* `Base128.length_lt_of_decode`: a number read leaves fewer octets, so reading one number after
  the other ends.
-/

namespace Pkix.Base128

/-- Why no number could be read. -/
inductive Fault
  /-- The octets end inside the number. -/
  | truncated
  /-- The first group is zero and more follow. -/
  | padded
  /-- The number does not stay below the `bound`. -/
  | tooLarge
deriving DecidableEq, Repr

/-- The groups of `n` before the last one, every octet with the high bit set. -/
def leading (n : Nat) : Bytes :=
  if n = 0 then [] else leading (n / 128) ++ [UInt8.ofNat (n % 128 + 128)]
termination_by n
decreasing_by omega

/-- The groups of `n`, at least one. -/
def encode (n : Nat) : Bytes := leading (n / 128) ++ [UInt8.ofNat (n % 128)]

/-- Continues to read a number of which the groups so far make `acc`, as `decode` starts it. -/
def decodeFrom (bound acc : Nat) : Bytes → Except Fault (Nat × Bytes)
  | [] => .error .truncated
  | x :: rest =>
    if bound ≤ acc * 128 then .error .tooLarge
    else if x < 0x80 then .ok (acc * 128 + x.toNat, rest)
    else decodeFrom bound (acc * 128 + (x.toNat - 128)) rest

/-- The number below `bound` at the start of the octets, and the octets after it. The bound is a
power of two of at least 128, so a number below it stays below it with its last group. -/
def decode (bound : Nat) : Bytes → Except Fault (Nat × Bytes)
  | [] => .error .truncated
  | x :: rest => if x = 0x80 then .error .padded else decodeFrom bound 0 (x :: rest)

theorem length_lt_of_decodeFrom {bound acc n : Nat} {b rest : Bytes}
    (h : decodeFrom bound acc b = .ok (n, rest)) : rest.length < b.length := by
  induction b generalizing acc with
  | nil => simp [decodeFrom] at h
  | cons x xs ih =>
    rw [decodeFrom] at h
    split at h
    · simp at h
    · split at h
      · simp only [Except.ok.injEq, Prod.mk.injEq] at h
        simp [h.2]
      · have := ih h
        simp only [List.length_cons]
        omega

theorem length_lt_of_decode {bound n : Nat} {b rest : Bytes}
    (h : decode bound b = .ok (n, rest)) : rest.length < b.length := by
  cases b with
  | nil => simp [decode] at h
  | cons x xs =>
    rw [decode] at h
    split at h
    · simp at h
    · exact length_lt_of_decodeFrom h

end Pkix.Base128
