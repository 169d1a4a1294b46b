import Pkix.Base128
import Pkix.Error

/-!
# Object identifiers as arcs, text and octets

* `Oid.ofArcs`, `Oid.ofText`: identifiers from their arcs and from dotted decimal text.
* `Oid.content`/`Oid.ofContent`: the content octets of an encoded identifier. The first two arcs
  are joined into one number; then the numbers follow one another to the base 128.
* `Oid.leadingOk_splitLeading`: every 64-bit number splits into two arcs that obey the rules.
-/

namespace Pkix.Oid

/-- The identifier with the given `arcs`. -/
def ofArcs (arcs : List Nat) : Except Error Oid :=
  if h : wellFormed arcs = true then .ok ⟨arcs, h⟩
  else match arcs with
    | root :: child :: _ => .error (.malformed (.oidLeading root child))
    | _ => .error (.malformed .oidTooShort)

/-- A 64-bit number in decimal, `s`: digits, of which leading zeros are idle, after an optional plus
sign. -/
def arcOfText? (s : List Char) : Option Nat :=
  let digits := match s with
    | '+' :: rest => rest
    | _ => s
  if digits.isEmpty || !digits.all Char.isDigit then none
  else
    let n := digits.foldl (fun n c => n * 10 + (c.toNat - 48)) 0
    if n < UInt64.size then some n else none

/-- The identifier that a dotted decimal text `s` denotes. -/
def ofText (s : String) : Except Error Oid :=
  match (s.toList.splitOn '.').mapM arcOfText? with
  | none => .error (.invalidInput (.oidText s))
  | some arcs => ofArcs arcs

/-- The first two arcs, from the number `n` that joins them. -/
def splitLeading (n : Nat) : Nat × Nat :=
  if n < 40 then (0, n) else if n < 80 then (1, n - 40) else (2, n - 80)

/-- The number that joins the first two arcs, `root` and `child`. -/
def joinLeading (root child : Nat) : Nat := root * 40 + child

theorem leadingOk_splitLeading {n : Nat} (h : n < UInt64.size) :
    leadingOk (splitLeading n).1 (splitLeading n).2 = true := by
  unfold splitLeading
  split
  · simp [leadingOk]; omega
  · split
    · simp [leadingOk]; omega
    · simp [leadingOk]; omega

/-- What a fault in a number says about the identifier. -/
def faultCause : Base128.Fault → Malformed
  | .truncated => .oidTruncated
  | .padded => .oidPadded
  | .tooLarge => .oidArcTooLarge

/-- Reads the 64-bit numbers that fill the octets `b` onto `done`, which are in reverse. -/
def numbers (b : Bytes) (done : List Nat) : Except Error (List Nat) :=
  if b = [] then .ok done.reverse
  else match h : Base128.decode UInt64.size b with
    | .error fault => .error (.malformed (faultCause fault))
    | .ok (n, rest) =>
      have := Base128.length_lt_of_decode h
      numbers rest (n :: done)
termination_by b.length

/-- The identifier with the given `content` octets. -/
def ofContent (content : Bytes) : Except Error Oid :=
  match numbers content [] with
  | .error e => .error e
  | .ok [] => .error (.malformed .oidEmpty)
  | .ok (n :: rest) => ofArcs ((splitLeading n).1 :: (splitLeading n).2 :: rest)

/-- The content octets of `o`, without tag and length. -/
def content (o : Oid) : Bytes :=
  match o.arcs with
  | root :: child :: rest => (joinLeading root child :: rest).flatMap Base128.encode
  | _ => []

end Pkix.Oid
