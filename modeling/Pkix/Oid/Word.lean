import Pkix.Oid.Codec

/-!
# Object identifiers on 64-bit words

The content octets of an identifier, read and written on words of 64 bits. Where a word does not
hold a result, or there is no place for an octet, there is no answer: `none`.

* `Word.add?`, `Word.sub?`, `Word.mul?`, `Word.shiftLeft?`: operations that answer what the same
  operation on numbers does, or nothing.
* `Base128.encodeWord?`, `Base128.decodeWord?`: a word in groups of seven bits.
* `Oid.contentWords?`, `Oid.ofContentWords?`: the content octets of arcs that are words, and the
  arcs with the given content octets.
-/

namespace Pkix

namespace Word

def add? (a b : UInt64) : Option UInt64 :=
  if a.toNat + b.toNat < UInt64.size then some (a + b) else none

def sub? (a b : UInt64) : Option UInt64 := if b ≤ a then some (a - b) else none

def mul? (a b : UInt64) : Option UInt64 :=
  if a.toNat * b.toNat < UInt64.size then some (a * b) else none

/-- The word `a` shifted by `count`, if no bit is lost at the high end. -/
def shiftLeft? (a count : UInt64) : Option UInt64 :=
  if count < 64 ∧ a.toNat <<< count.toNat < UInt64.size then some (a <<< count) else none

end Word

namespace Base128

/-- The groups of a word, the last one first, where they do not need more than `room` places. -/
def groups? : Nat → UInt64 → Option Bytes
  | 0, _ => none
  | room + 1, w =>
    let group := (w &&& 0x7F).toUInt8
    if w >>> 7 = 0 then some [group] else (groups? room (w >>> 7)).map (group :: ·)

/-- Groups, the last one first, in their order, with the high bit set on every one but the last. -/
def marked : Bytes → Bytes
  | [] => []
  | last :: before => (before.map (· ||| 0x80)).reverse ++ [last]

/-- The groups of a word `w`. There are ten places for them. -/
def encodeWord? (w : UInt64) : Option Bytes := (groups? 10 w).map marked

/-- Continues to read a word of which the groups so far make `acc`. -/
def decodeWordFrom? (acc : UInt64) : Bytes → Option (Except Fault (UInt64 × Bytes))
  | [] => some (.error .truncated)
  | x :: rest =>
    if acc >>> 57 ≠ 0 then some (.error .tooLarge)
    else match Word.shiftLeft? acc 7 with
      | none => none
      | some shifted =>
        let acc := shifted ||| (x &&& 0x7F).toUInt64
        if x &&& 0x80 = 0 then some (.ok (acc, rest)) else decodeWordFrom? acc rest

/-- The word at the start of the octets, and the octets after it, read by `decodeWordFrom?`. There
must be an octet. -/
def decodeWord? : Bytes → Option (Except Fault (UInt64 × Bytes))
  | [] => none
  | x :: rest => if x = 0x80 then some (.error .padded) else decodeWordFrom? 0 (x :: rest)

theorem length_lt_of_decodeWordFrom? {acc w : UInt64} {b rest : Bytes}
    (h : decodeWordFrom? acc b = some (.ok (w, rest))) : rest.length < b.length := by
  induction b generalizing acc with
  | nil => simp [decodeWordFrom?] at h
  | cons x xs ih =>
    simp only [decodeWordFrom?] at h
    split at h
    · simp at h
    · split at h
      · simp at h
      · split at h
        · simp only [Option.some.injEq, Except.ok.injEq, Prod.mk.injEq] at h
          simp [h.2]
        · have := ih h
          simp only [List.length_cons]
          omega

theorem length_lt_of_decodeWord? {w : UInt64} {b rest : Bytes}
    (h : decodeWord? b = some (.ok (w, rest))) : rest.length < b.length := by
  cases b with
  | nil => simp [decodeWord?] at h
  | cons x xs =>
    rw [decodeWord?] at h
    split at h
    · simp at h
    · exact length_lt_of_decodeWordFrom? h

end Base128

namespace Oid

/-- The first two arcs, from the word `w` that joins them. -/
def splitWord? (w : UInt64) : Option (UInt64 × UInt64) :=
  if w < 40 then some (0, w)
  else if w < 80 then (Word.sub? w 40).map (1, ·)
  else (Word.sub? w 80).map (2, ·)

/-- The word that joins the first two arcs, `root` and `child`. -/
def joinWords? (root child : UInt64) : Option UInt64 :=
  (Word.mul? root 40).bind (Word.add? · child)

/-- Reads the words that fill the octets `b` onto `done`, which are in reverse. -/
def words? (b : Bytes) (done : List UInt64) : Option (Except Error (List UInt64)) :=
  if b = [] then some (.ok done.reverse)
  else match h : Base128.decodeWord? b with
    | none => none
    | some (.error fault) => some (.error (.malformed (faultCause fault)))
    | some (.ok (w, rest)) =>
      have := Base128.length_lt_of_decodeWord? h
      words? rest (w :: done)
termination_by b.length

/-- The arcs with the given `content` octets. -/
def ofContentWords? (content : Bytes) : Option (Except Error (List UInt64)) :=
  if content = [] then some (.error (.malformed .oidEmpty))
  else match words? content [] with
    | none => none
    | some (.error e) => some (.error e)
    | some (.ok []) => none
    | some (.ok (w :: rest)) =>
      (splitWord? w).map fun (root, child) => .ok (root :: child :: rest)

/-- The content octets of arcs, of which there must be two. -/
def contentWords? : List UInt64 → Option Bytes
  | root :: child :: rest => do
    let joined ← joinWords? root child
    let encodings ← (joined :: rest).mapM Base128.encodeWord?
    return encodings.flatten
  | _ => none

/-- The arcs of `o` as words. -/
def words (o : Oid) : List UInt64 := o.arcs.map UInt64.ofNat

end Oid

end Pkix
