import Pkix.Algorithm.Basic
import Pkix.Checked
import Pkix.Der.Tag.Word
import Pkix.Oid.Word

/-!
# Places

A place is an index into a buffer, together with the limits that hold for what is read there. What
is read is cut out of the buffer between indices that are counted from lengths in the buffer itself.
Reading stops where an index is out of range.

* `Place.lengthFrom`, `Place.cut`, `Place.element`: the length octets from an index on, the element
  that they bound, and the next element.
* `Oid.wordAt`, `Oid.ofContentAt`: the words of an identifier, by their indices in its content.
* `Place.turn`, `Place.collectFrom`: the loop over all elements that are left.
* `Place.enter`: a place at the start of the content of the next element.
* `Place.lt_of_element`: no element is empty.
-/

namespace Pkix

open Der Checked

/-! ## Object identifiers -/

namespace Oid

/-- The word that stands in `content` at the `index`, and the index after it. -/
def wordAt (content : Bytes) (index : Nat) : Checked (UInt64 × Nat) := do
  let rest ← require (slice? content index content.length)
  let word ← require (Base128.decodeWord? rest)
  let (w, after) ← ofResult (word.mapError fun fault => .malformed (faultCause fault))
  let used ← require (difference? rest.length after.length)
  return (w, ← require (sum? index used))

theorem lt_of_wordAt {content : Bytes} {index next : Nat} {w : UInt64}
    (h : (wordAt content index).run = some (.ok (w, next))) : index < next := by
  obtain ⟨rest, -, h⟩ := run_bind_eq_ok.mp h
  obtain ⟨word, hword, h⟩ := run_bind_eq_ok.mp h
  obtain ⟨⟨w', after⟩, hread, h⟩ := run_bind_eq_ok.mp h
  obtain ⟨used, hused, h⟩ := run_bind_eq_ok.mp h
  obtain ⟨next', hnext, h⟩ := run_bind_eq_ok.mp h
  cases h
  obtain ⟨-, rfl⟩ := difference?_eq_some.mp (run_require_eq_ok.mp hused)
  obtain ⟨-, rfl⟩ := sum?_eq_some.mp (run_require_eq_ok.mp hnext)
  cases word with
  | error fault => cases hread
  | ok r =>
    cases hread
    have := Base128.length_lt_of_decodeWord? (run_require_eq_ok.mp hword)
    omega

/-- Reads words up to the end of the `content` onto `done`, which are in reverse. -/
def wordsFrom (content : Bytes) (index : Nat) (done : List UInt64) : Checked (List UInt64) :=
  if content.length ≤ index then return done.reverse
  else match _ : (wordAt content index).run with
    | none => ExceptT.mk none
    | some (.error e) => throw e
    | some (.ok (w, next)) => wordsFrom content next (w :: done)
termination_by content.length - index
decreasing_by
  have := lt_of_wordAt ‹_›
  omega

/-- The identifier with the given `content` octets. -/
def ofContentAt (content : Bytes) : Checked Oid := do
  if content = [] then throw (.malformed .oidEmpty)
  else
    let words ← wordsFrom content 0 []
    let (root, child) ← require (splitWord? (← require words[0]?))
    ofArcs ((root :: child :: words.drop 1).map UInt64.toNat)

end Oid

namespace Der

/-- An element in a buffer: a tag, the content octets and the whole encoding. -/
structure Element where
  tag : Tag
  content : Bytes
  raw : Bytes

/-- The value that an element `e` stands for. -/
def Element.value (e : Element) : Value := ⟨e.tag, e.content⟩

/-- An index, `position`, into a `buffer`. -/
structure Place where
  buffer : Bytes
  position : Nat
  limits : Limits
deriving DecidableEq

namespace Place

/-- The start of a `buffer`. -/
def ofBuffer (buffer : Bytes) (limits : Limits) : Place := ⟨buffer, 0, limits⟩

/-- The start of a `buffer` that is not too long. -/
def start (buffer : Bytes) (limits : Limits) : Except Error Place := do
  limits.check buffer
  return ofBuffer buffer limits

/-- The position of `p`, to come back to. -/
def mark (p : Place) : Mark := ⟨p.position⟩

/-- The place at a position `m` of the same buffer. -/
def rewind (p : Place) (m : Mark) : Place := { p with position := m.position }

/-- Nothing is left at `p`. -/
def isEmpty (p : Place) : Bool := p.buffer.length ≤ p.position

/-- The octet after `p`, which stays unread. -/
def peek (p : Place) : Option UInt8 := p.buffer[p.position]?

/-- The octets from `p` on. -/
def rest (p : Place) : Checked Bytes := require (slice? p.buffer p.position p.buffer.length)

/-- Refuses octets that are left over at `p`. -/
def finish (p : Place) : Checked Unit := do
  if p.isEmpty then return ()
  else
    let left ← require (difference? p.buffer.length p.position)
    throw (.malformed (.trailing left p.position))

/-! ## Elements -/

/-- The length in `count` octets from an `index` on, which are shifted into a word, and the index
after them. -/
def digitsFrom (b : Bytes) (index count : Nat) : Checked (Nat × Nat) := do
  let stop ← require (sum? index count)
  match slice? b index stop with
  | none => throw (.malformed .lengthTruncated)
  | some digits =>
    let length : UInt64 := digits.foldl (fun n digit => n <<< 8 ||| digit.toUInt64) 0
    if (← require digits[0]?) = 0 ∨ length < 0x80 then throw (.malformed .lengthPadded)
    else return (length.toNat, stop)

/-- The length that is spelt from an `index` on, and the index after it. -/
def lengthFrom (b : Bytes) (index : Nat) : Checked (Nat × Nat) := do
  match b[index]? with
  | none => throw (.malformed .lengthMissing)
  | some x =>
    let index ← require (sum? index 1)
    if x < 0x80 then return (x.toNat, index)
    else if x = 0x80 then throw (.malformed .lengthIndefinite)
    else if x ≤ 0x84 then digitsFrom b index (x &&& 0x7F).toNat
    else throw (.malformed .lengthTooLong)

/-- The element with the given `tag` that begins at `p` and whose content has the given `start` and
`length`. -/
def cut (p : Place) (tag : Tag) (start length : Nat) : Checked (Element × Place) := do
  let left ← require (difference? p.buffer.length start)
  if left < length then throw (.malformed (.overrun length left))
  else
    let stop ← require (sum? start length)
    let content ← require (slice? p.buffer start stop)
    let raw ← require (slice? p.buffer p.position stop)
    return (⟨tag, content, raw⟩, { p with position := stop })

/-- The element after `p`. -/
def element (p : Place) : Checked (Element × Place) := do
  let (tag, used) ← Tag.read (← p.rest)
  let index ← require (sum? p.position used)
  let (length, start) ← lengthFrom p.buffer index
  p.cut tag start length

/-- The element after `p`, which must have the given `tag`. -/
def tagged (p : Place) (tag : UInt8) : Checked (Element × Place) := do
  let (e, next) ← p.element
  if e.tag.isOctet tag then return (e, next)
  else throw (.malformed (.unexpectedTag tag e.tag.octets))

/-- The element after `p`, as a value. -/
def value (p : Place) : Checked (Value × Place) := do
  let (e, next) ← p.element
  return (e.value, next)

/-- The encoding of the element after `p`. -/
def raw (p : Place) : Checked (Bytes × Place) := do
  let (e, next) ← p.element
  return (e.raw, next)

/-- The element after `p`, which must have the given `tag`, as a value. -/
def expect (p : Place) (tag : UInt8) : Checked (Value × Place) := do
  let (e, next) ← p.tagged tag
  return (e.value, next)

/-- The element after `p` if its first octet is the given `tag`. -/
def optional (p : Place) (tag : UInt8) : Checked (Option Value × Place) := do
  if p.peek = some tag then
    let (v, next) ← p.expect tag
    return (some v, next)
  else return (none, p)

/-- The start of the content of the element after `p`, which must have the given `tag`, and the
place after the element. -/
def enter (p : Place) (tag : UInt8) : Checked (Place × Place) := do
  let (e, next) ← p.tagged tag
  return (ofBuffer e.content p.limits, next)

/-! ## All elements -/

/-- What a `turn` of the loop over all elements comes to. -/
inductive Turn
  /-- It was the last one. -/
  | ends (items : Array Value)
  /-- There may be more elements. -/
  | goesOn (next : Place) (items : Array Value)

/-- Looks for an end at `p`, then for the limit, then reads an element onto `items`. -/
def turn (p : Place) (items : Array Value) : Checked Turn := do
  if p.isEmpty then return .ends items
  else if items.size = p.limits.maxElements then
    throw (.malformed (.tooManyElements p.limits.maxElements))
  else
    let (v, next) ← p.value
    return .goesOn next (items.push v)

theorem le_of_digitsFrom {b : Bytes} {index count length next : Nat}
    (h : (digitsFrom b index count).run = some (.ok (length, next))) : index ≤ next := by
  obtain ⟨stop, hstop, h⟩ := run_bind_eq_ok.mp h
  obtain ⟨-, rfl⟩ := sum?_eq_some.mp (run_require_eq_ok.mp hstop)
  split at h
  · cases h
  · obtain ⟨first, -, h⟩ := run_bind_eq_ok.mp h
    split at h
    · cases h
    · cases h
      exact Nat.le_add_right index count

theorem lt_of_lengthFrom {b : Bytes} {index length next : Nat}
    (h : (lengthFrom b index).run = some (.ok (length, next))) : index < next := by
  unfold lengthFrom at h
  split at h
  · cases h
  · obtain ⟨after, hafter, h⟩ := run_bind_eq_ok.mp h
    obtain ⟨-, rfl⟩ := sum?_eq_some.mp (run_require_eq_ok.mp hafter)
    split at h
    · cases h
      exact Nat.lt_succ_self index
    · split at h
      · cases h
      · split at h
        · exact le_of_digitsFrom h
        · cases h

theorem le_of_cut {p next : Place} {e : Element} {tag : Tag} {start length : Nat}
    (h : (p.cut tag start length).run = some (.ok (e, next))) :
    start ≤ next.position ∧ next.buffer = p.buffer := by
  obtain ⟨left, -, h⟩ := run_bind_eq_ok.mp h
  split at h
  · cases h
  · obtain ⟨stop, hstop, h⟩ := run_bind_eq_ok.mp h
    obtain ⟨content, -, h⟩ := run_bind_eq_ok.mp h
    obtain ⟨raw, -, h⟩ := run_bind_eq_ok.mp h
    cases h
    obtain ⟨-, rfl⟩ := sum?_eq_some.mp (run_require_eq_ok.mp hstop)
    exact ⟨Nat.le_add_right start length, rfl⟩

/-- No element `e` is empty. -/
theorem lt_of_element {p next : Place} {e : Element}
    (h : p.element.run = some (.ok (e, next))) :
    p.position < next.position ∧ next.buffer = p.buffer := by
  obtain ⟨rest, -, h⟩ := run_bind_eq_ok.mp h
  obtain ⟨⟨tag, used⟩, -, h⟩ := run_bind_eq_ok.mp h
  obtain ⟨index, hindex, h⟩ := run_bind_eq_ok.mp h
  obtain ⟨⟨length, start⟩, hlength, h⟩ := run_bind_eq_ok.mp h
  obtain ⟨-, hindex⟩ := sum?_eq_some.mp (run_require_eq_ok.mp hindex)
  have hlt := lt_of_lengthFrom hlength
  obtain ⟨hle, hbuffer⟩ := le_of_cut h
  exact ⟨by omega, hbuffer⟩

/-- Every turn that goes on leaves less to read at `next`. -/
theorem lt_of_turn {p next : Place} {items items' : Array Value}
    (h : (p.turn items).run = some (.ok (.goesOn next items'))) :
    next.buffer.length - next.position < p.buffer.length - p.position := by
  unfold turn at h
  split at h
  · cases h
  · rename_i hleft
    split at h
    · cases h
    · obtain ⟨⟨v, after⟩, hvalue, h⟩ := run_bind_eq_ok.mp h
      obtain ⟨⟨e, after'⟩, helement, hvalue⟩ := run_bind_eq_ok.mp hvalue
      cases hvalue
      cases h
      obtain ⟨hlt, hbuffer⟩ := lt_of_element helement
      rw [isEmpty, decide_eq_true_eq] at hleft
      rw [hbuffer]
      omega

/-- Takes turns from `p` until one ends. -/
def collectFrom (p : Place) (items : Array Value) : Checked (Array Value) :=
  match _ : (p.turn items).run with
  | none => ExceptT.mk none
  | some (.error e) => throw e
  | some (.ok (.ends items)) => return items
  | some (.ok (.goesOn next items)) => next.collectFrom items
termination_by p.buffer.length - p.position
decreasing_by exact lt_of_turn ‹_›

/-- All elements that are left at `p`. So many are `expected`, and room is made for them first, but
for no more than there may be. -/
def collect (p : Place) (expected : Nat) : Checked (List Value) := do
  let capacity := min expected p.limits.maxElements
  require (reserve? capacity)
  let items ← p.collectFrom (Array.emptyWithCapacity capacity)
  return items.toList

/-- A constructed element with the given `tag`, as the list of its elements. -/
def collectElements (p : Place) (tag : UInt8) (expected : Nat) : Checked (List Value × Place) := do
  let (inner, next) ← p.enter tag
  return (← inner.collect expected, next)

/-! ## Elements of universal types -/

/-- The element after `p`, an INTEGER. -/
def integer (p : Place) : Checked (Int × Place) := do
  let (v, next) ← p.expect Tag.integer
  return (← v.integer, next)

/-- The element after `p`, an INTEGER of 32 bits. -/
def word (p : Place) : Checked (UInt32 × Place) := do
  let (v, next) ← p.expect Tag.integer
  return (← v.word, next)

/-- The element after `p`, an OBJECT IDENTIFIER. -/
def oid (p : Place) : Checked (Oid × Place) := do
  let (e, next) ← p.tagged Tag.oid
  return (← Oid.ofContentAt e.content, next)

/-- The element after `p`, an OCTET STRING. -/
def octetString (p : Place) : Checked (Bytes × Place) := do
  let (e, next) ← p.tagged Tag.octetString
  return (e.content, next)

/-- The parameters of an algorithm after `p`, which may be left out; a NULL has no content. -/
def parameters (p : Place) : Checked (Option Value × Place) := do
  if p.isEmpty then return (none, p)
  else
    let (v, next) ← p.value
    if v.is Tag.null then v.null
    return (some v, next)

/-- The algorithm that a value `v` is. -/
def algorithmOf (limits : Limits) (v : Value) : Checked Algorithm := do
  if v.is Tag.sequence then
    let (id, p) ← (ofBuffer v.content limits).oid
    let (parameters, p) ← p.parameters
    p.finish
    return ⟨id, parameters⟩
  else throw (.malformed (.wrongStructure .algorithmId))

/-- The element after `p`, an algorithm. -/
def algorithm (p : Place) : Checked (Algorithm × Place) := do
  let (v, next) ← p.expect Tag.sequence
  return (← algorithmOf p.limits v, next)

end Place

end Der

end Pkix
