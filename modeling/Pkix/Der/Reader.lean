import Pkix.Der.Primitive
import Pkix.Oid.Narrow

/-!
# Readers of whole structures

Certificates, revocation lists and key containers are read as a whole: either the octets have the
structure, or they are refused without a reason. A `Reader` takes elements from the start of
octets. What reads a single element is a function on values, and `Reader.next` makes a reader of
it.

* `Reader.whole`: a reader that has to use up all octets.
* `Reader.sequence`, `Reader.listOf`, `Reader.setOf`: structures within an element.
* `Reader.optional`, `Reader.explicit`: fields that may be missing.
-/

namespace Pkix.Der

/-- Takes something from the start of octets, or refuses. -/
abbrev Reader := StateT Bytes Option

namespace Reader

/-- The universal types that structures may hold; of the text types, graphic, general and universal
strings are not among them. -/
def universalTypes : List Nat :=
  [1, 2, 3, 4, 5, 6, 9, 10, 12, 18, 19, 20, 21, 22, 23, 24, 26, 30]

/-- Elements that begin with the octet `x` may stand in a structure: those of the other classes with
a number in the octet, SEQUENCE and SET, and primitive `universalTypes`. -/
def allowed (x : UInt8) : Bool :=
  let t := Tag.ofOctet x
  if t.cls = .universal then
    x == Tag.sequence || x == Tag.set || (!t.constructed && universalTypes.contains t.number.toNat)
  else t.number != 31

/-- The first element of octets and the octets after it. -/
def element : Reader Value
  | [] => none
  | x :: b =>
    if allowed x then
      match Value.first (x :: b) with
      | .ok v => some (v, (x :: b).drop v.size)
      | .error _ => none
    else none

theorem length_lt_of_element {b rest : Bytes} {v : Value} (h : element b = some (v, rest)) :
    rest.length < b.length := by
  unfold element at h
  split at h
  · cases h
  · split at h
    · split at h
      · cases h
        have := v.size_pos
        simp only [List.length_drop, List.length_cons]
        omega
      · cases h
    · cases h

/-- Uses up all octets of `b`. -/
def whole (r : Reader α) (b : Bytes) : Option α :=
  match r b with
  | some (x, []) => some x
  | _ => none

/-- Reads the next element by `read`. -/
def next (read : Value → Option α) : Reader α := do
  let v ← element
  StateT.lift (read v)

/-- Reads the content of an element `v` with the given `tag`. -/
def within (tag : UInt8) (r : Reader α) (v : Value) : Option α :=
  if v.is tag then whole r v.content else none

/-- Reads the content of a SEQUENCE `v`. -/
def sequence (r : Reader α) (v : Value) : Option α := within Tag.sequence r v

/-- The elements that fill the octets `b`, onto `done`, which are in reverse. -/
def elementsFrom (done : List Value) (b : Bytes) : Option (List Value) :=
  if b = [] then some done.reverse
  else match h : element b with
    | none => none
    | some (v, rest) =>
      have := length_lt_of_element h
      elementsFrom (v :: done) rest
termination_by b.length

/-- Reads every element inside an element `v` with the given `tag`. -/
def each (tag : UInt8) (read : Value → Option α) (v : Value) : Option (List α) :=
  if v.is tag then (elementsFrom [] v.content).bind (·.mapM read) else none

/-- Reads a SEQUENCE OF, each element by `read`. -/
def listOf (read : Value → Option α) (v : Value) : Option (List α) := each Tag.sequence read v

/-- Reads the next element if it begins with an octet of the kind `is`. -/
def optional (is : UInt8 → Bool) (read : Value → Option α) : Reader (Option α) := fun b =>
  match b with
  | [] => some (none, [])
  | x :: _ =>
    if !allowed x then none
    else if is x then ((next read) b).map fun (y, rest) => (some y, rest)
    else some (none, b)

/-- Passes over context-specific elements with a number below `n`, up to one with that number. -/
def field (n : Nat) (b : Bytes) : Option (Option Value × Bytes) :=
  match b with
  | [] => some (none, [])
  | x :: b =>
    let t := Tag.ofOctet x
    if !allowed x then none
    else if t.cls ≠ .context ∨ n < t.number.toNat then some (none, x :: b)
    else match h : element (x :: b) with
      | none => none
      | some (v, rest) =>
        have := length_lt_of_element h
        if t.number.toNat = n then some (some v, rest) else field n rest
termination_by b.length
decreasing_by exact this

/-- Reads the context-specific field with the number `n`, if it is there. -/
def tagged (n : Nat) (read : Value → Option α) : Reader (Option α) := do
  match ← field n with
  | none => return none
  | some v => return some (← StateT.lift (read v))

/-- Reads an element inside an EXPLICIT tag, `v`. -/
def inside (read : Value → Option α) (v : Value) : Option α :=
  if v.tag.constructed then whole (next read) v.content else none

/-- Reads a field with the EXPLICIT tag `n`, if it is there. -/
def explicit (n : Nat) (read : Value → Option α) : Reader (Option α) := tagged n (inside read)

/-- Takes all elements that are left. -/
def remaining : Reader (List Value) := fun b => (elementsFrom [] b).map fun vs => (vs, [])

/-! ## Single elements -/

/-- The INTEGER that `v` is. -/
def integer (v : Value) : Option Int := v.integer.toOption

/-- The INTEGER that `v` is, which is not negative. -/
def natural (v : Value) : Option Nat := do
  let n ← integer v
  if 0 ≤ n then some n.toNat else none

/-- The BOOLEAN that `v` is. -/
def boolean (v : Value) : Option Bool := v.boolean.toOption

/-- The octets of the OCTET STRING that `v` is. -/
def octetString (v : Value) : Option Bytes := v.octetString.toOption

/-- The OBJECT IDENTIFIER that `v` is, with short content. -/
def oid (v : Value) : Option Oid := if v.is Tag.oid then Oid.ofNarrow? v.content else none

/-- The `content` of a BIT STRING: how many bits of the last octet are unused, and the octets. What
the unused bits are is not looked at. -/
def bits (content : Bytes) : Option (UInt8 × Bytes) :=
  match content with
  | [] => none
  | unused :: octets =>
    if 7 < unused ∨ (unused ≠ 0 ∧ octets = []) then none else some (unused, octets)

/-- The `content` of a BIT STRING without unused bits. -/
def wholeBits (content : Bytes) : Option Bytes :=
  match bits content with
  | some (0, octets) => some octets
  | _ => none

/-- The BIT STRING that `v` is. -/
def bitString (v : Value) : Option (UInt8 × Bytes) :=
  if v.is Tag.bitString then bits v.content else none

/-! ## Fields that certificates, revocation lists and key containers share -/

/-- An algorithm: an identifier and parameters, which are any element. -/
def algorithm : Value → Option (Oid × Option Value) :=
  sequence do
    let id ← next oid
    return (id, ← optional (fun _ => true) some)

/-- The encoding of an element `v` that another reader, `read`, accepts. -/
def verbatim (read : Value → Option α) (v : Value) : Option Bytes := (read v).map fun _ => v.octets

end Reader

end Pkix.Der
