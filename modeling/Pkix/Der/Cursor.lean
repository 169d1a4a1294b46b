import Pkix.Der.Value

/-!
# Cursors

A cursor is a place in a buffer, together with the limits that hold for what is read there. Every
reading operation answers what it read and a cursor after it; the cursor it started from is still
good, so a failed attempt leaves nothing to undo.

* `Cursor.value`, `Cursor.raw`, `Cursor.expect`, `Cursor.optional`: the next element, as a value,
  as octets, with a required tag, or only where the tag is there.
* `Cursor.enter`: a cursor over the content of the next element.
* `Cursor.all`, `Cursor.sequence`, `Cursor.setOf`: all elements, under the limit on their number.
* `Cursor.finish`: nothing may be left.
* `Cursor.rest_eq` holds in every cursor: the octets to come are the buffer from its position on.
-/

namespace Pkix.Der

/-- A place in a `buffer`, with the `limits` that hold there. -/
structure Cursor where
  buffer : Bytes
  position : Nat
  /-- The octets of the buffer from `position` on. -/
  rest : Bytes
  limits : Limits
  rest_eq : rest = buffer.drop position

/-- A position to come back to. -/
structure Mark where
  position : Nat
deriving DecidableEq, Repr

namespace Cursor

/-- The start of a `buffer` of any length. -/
def ofBuffer (buffer : Bytes) (limits : Limits) : Cursor := ⟨buffer, 0, buffer, limits, rfl⟩

/-- The start of a `buffer` that is not too long. -/
def start (buffer : Bytes) (limits : Limits) : Except Error Cursor := do
  limits.check buffer
  return ofBuffer buffer limits

/-- The cursor `n` octets after `c`. -/
def advance (c : Cursor) (n : Nat) : Cursor where
  buffer := c.buffer
  position := c.position + n
  rest := c.rest.drop n
  limits := c.limits
  rest_eq := by rw [c.rest_eq, List.drop_drop]

/-- The position of `c`, to come back to. -/
def mark (c : Cursor) : Mark := ⟨c.position⟩

/-- The cursor at a position `m` of the same buffer. -/
def rewind (c : Cursor) (m : Mark) : Cursor :=
  ⟨c.buffer, m.position, c.buffer.drop m.position, c.limits, rfl⟩

/-- Nothing is left at `c`. -/
def isEmpty (c : Cursor) : Bool := c.rest.isEmpty

/-- The octet after `c`, which stays unread. -/
def peek (c : Cursor) : Option UInt8 := c.rest.head?

/-- Refuses octets that are left over at `c`. -/
def finish (c : Cursor) : Except Error Unit :=
  if c.isEmpty then .ok () else .error (.malformed (.trailing c.rest.length c.position))

/-- The element after `c`. -/
def value (c : Cursor) : Except Error (Value × Cursor) := do
  let v ← Value.first c.rest
  return (v, c.advance v.size)

/-- The encoding of the element after `c`, as it stands in the buffer. -/
def raw (c : Cursor) : Except Error (Bytes × Cursor) := do
  let v ← Value.first c.rest
  return (c.rest.take v.size, c.advance v.size)

/-- The element after `c`, which must have the given `tag`. -/
def expect (c : Cursor) (tag : UInt8) : Except Error (Value × Cursor) := do
  let (v, c) ← c.value
  if v.is tag then return (v, c)
  else .error (.malformed (.unexpectedTag tag v.tag.octets))

/-- The element after `c` if its first octet is the given `tag`. -/
def optional (c : Cursor) (tag : UInt8) : Except Error (Option Value × Cursor) :=
  if c.peek = some tag then do
    let (v, c) ← c.expect tag
    return (some v, c)
  else .ok (none, c)

/-- A cursor over the content of the element after `c`, which must have the given `tag`, and the
cursor after the element. -/
def enter (c : Cursor) (tag : UInt8) : Except Error (Cursor × Cursor) := do
  let (v, next) ← c.expect tag
  return (ofBuffer v.content c.limits, next)

/-- Reads what is left onto the elements `done`, which are in reverse and leave room for `room`
more. -/
def allFrom (c : Cursor) (done : List Value) : Nat → Except Error (List Value)
  | 0 =>
    if c.isEmpty then .ok done.reverse
    else .error (.malformed (.tooManyElements c.limits.maxElements))
  | room + 1 =>
    if c.isEmpty then .ok done.reverse
    else
      match c.value with
      | .error e => .error e
      | .ok (v, next) => next.allFrom (v :: done) room

/-- All elements that are left at `c`. -/
def all (c : Cursor) : Except Error (List Value) := c.allFrom [] c.limits.maxElements

/-- A constructed element with the given `tag`, as the list of its elements. -/
def elements (c : Cursor) (tag : UInt8) : Except Error (List Value × Cursor) := do
  let (inner, next) ← c.enter tag
  return (← inner.all, next)

/-- The elements of a SEQUENCE, the element after `c`. -/
def sequence (c : Cursor) : Except Error (List Value × Cursor) := c.elements Tag.sequence

/-- The elements of a SET, the element after `c`, in the order in which they are encoded. -/
def setOf (c : Cursor) : Except Error (List Value × Cursor) := c.elements Tag.set

end Cursor

/-- The one element that the octets `b` are. -/
def decode (b : Bytes) : Except Error Value := do
  let c ← Cursor.start b .default
  let (v, c) ← c.value
  c.finish
  return v

/-- The elements of the one constructed element with the given `tag` that the octets `b` are. -/
def decodeElements (b : Bytes) (tag : UInt8) : Except Error (List Value) := do
  let c ← Cursor.start b .default
  let (vs, c) ← c.elements tag
  c.finish
  return vs

end Pkix.Der
