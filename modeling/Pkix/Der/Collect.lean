import Pkix.Der.Cursor

/-!
# Collecting elements

The loop that reads all elements that are left onto the end of an array. `Cursor.all` says what it
comes to.

* `Cursor.turn`: what one turn of the loop does. Each turn that goes on leaves less to read.
* `Cursor.collectFrom`: turns up to the one that ends. `Cursor.collect` starts with an empty array,
  with room for as many elements as are expected, if so many may come.
* `Cursor.collectElements`, `decodeCollected`, `decodeSequence`: the elements of one constructed
  element.
-/

namespace Pkix.Der

/-- What a `turn` of the loop comes to. -/
inductive Turn
  /-- It was the last one. -/
  | ends (outcome : Except Error (Array Value))
  /-- There may be more elements. -/
  | goesOn (next : Cursor) (items : Array Value)

namespace Cursor

/-- Looks for an end at `c`, then for the limit, then reads an element onto `items`. -/
def turn (c : Cursor) (items : Array Value) : Turn :=
  if c.isEmpty then .ends (.ok items)
  else if items.size = c.limits.maxElements then
    .ends (.error (.malformed (.tooManyElements c.limits.maxElements)))
  else
    match c.value with
    | .error e => .ends (.error e)
    | .ok (v, next) => .goesOn next (items.push v)

theorem length_rest_lt_of_value {c next : Cursor} {v : Value} (hrest : ¬c.isEmpty = true)
    (h : c.value = .ok (v, next)) : next.rest.length < c.rest.length := by
  have hpos : 0 < c.rest.length := by
    rw [isEmpty, List.isEmpty_iff] at hrest
    exact List.length_pos_iff.mpr hrest
  have hadvance : next.rest = c.rest.drop v.size := by
    unfold value at h
    cases hfirst : Value.first c.rest with
    | error e =>
      rw [hfirst] at h
      cases h
    | ok w =>
      rw [hfirst] at h
      cases h
      rfl
  have := v.size_pos
  rw [hadvance, List.length_drop]
  omega

/-- Every turn that goes on leaves less to read at `next`. -/
theorem length_rest_lt_of_turn {c next : Cursor} {items items' : Array Value}
    (h : c.turn items = .goesOn next items') : next.rest.length < c.rest.length := by
  unfold turn at h
  split at h
  · cases h
  · rename_i hrest
    split at h
    · cases h
    · split at h
      · cases h
      · rename_i v after hvalue
        cases h
        exact length_rest_lt_of_value hrest hvalue

/-- Takes turns from `c` until one ends. -/
def collectFrom (c : Cursor) (items : Array Value) : Except Error (Array Value) :=
  match _ : c.turn items with
  | .ends outcome => outcome
  | .goesOn next items => next.collectFrom items
termination_by c.rest.length
decreasing_by exact length_rest_lt_of_turn ‹_›

/-- All elements that are left at `c`, of which so many are `expected`. -/
def collect (c : Cursor) (expected : Nat) : Except Error (List Value) := do
  let items ← c.collectFrom (Array.emptyWithCapacity (min expected c.limits.maxElements))
  return items.toList

/-- A constructed element with the given `tag`, as the list of its elements. -/
def collectElements (c : Cursor) (tag : UInt8) (expected : Nat) :
    Except Error (List Value × Cursor) := do
  let (inner, next) ← c.enter tag
  return (← inner.collect expected, next)

end Cursor

/-- The elements of the one constructed element with the given `tag` that the octets `b` are. -/
def decodeCollected (b : Bytes) (tag : UInt8) (expected : Nat) : Except Error (List Value) := do
  let c ← Cursor.start b .default
  let (vs, c) ← c.collectElements tag expected
  c.finish
  return vs

/-- The elements of the one SEQUENCE that the octets `b` are. -/
def decodeSequence (b : Bytes) (expected : Nat) : Except Error (List Value) :=
  decodeCollected b Tag.sequence expected

end Pkix.Der
