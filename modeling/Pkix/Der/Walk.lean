import Pkix.Der.Place

/-!
# Walks

A walk goes through a buffer and the contents of its elements, one call at a time. A call reads at
the place that the walk has come to, enters the content of an element or leaves it for what follows
the element, or marks the place and comes back to it. After a call that fails the walk is where it
was.

* `Place.perform`: what a reading call answers, and the place after it.
* `Walk.call`: what a call does. `Walk.turn`: its outcome, and the walk after it.
* `Walk.run`: calls one after the other.
-/

namespace Pkix.Der

open Checked

/-- What is read at a place. -/
inductive Read
  | value
  | raw
  | expect (tag : UInt8)
  | optional (tag : UInt8)
  | sequence (expected : Nat)
  /-- A set, or what has another `tag` in its place. -/
  | setOf (tag : Option UInt8) (expected : Nat)
  | all (expected : Nat)
  | integer
  | word
  | oid
  | octetString
  | algorithm
  | peek
  | finish
  | rest
deriving DecidableEq

/-- What a call answers. -/
inductive Reply
  | value (v : Value)
  | found (v : Option Value)
  | elements (vs : List Value)
  | integer (n : Int)
  | word (n : UInt32)
  | oid (id : Oid)
  | algorithm (a : Algorithm)
  | octet (x : Option UInt8)
  | octets (b : Bytes)
  | nothing
deriving DecidableEq

namespace Place

/-- Gives a reading `x` a `form` of its own. -/
def replying {α : Type} (form : α → Reply) (x : Checked (α × Place)) : Checked (Reply × Place) := do
  let (a, next) ← x
  return (form a, next)

/-- Gives what leaves the place `p` as it is a `form` of its own. -/
def looking {α : Type} (p : Place) (form : α → Reply) (x : Checked α) :
    Checked (Reply × Place) := do
  let a ← x
  return (form a, p)

/-- Reads at a place `p`. -/
def perform (p : Place) : Read → Checked (Reply × Place)
  | .value => replying .value p.value
  | .raw => replying .octets p.raw
  | .expect tag => replying .value (p.expect tag)
  | .optional tag => replying .found (p.optional tag)
  | .sequence expected => replying .elements (p.collectElements Tag.sequence expected)
  | .setOf tag expected =>
    replying .elements (p.collectElements (tag.getD Tag.set) expected)
  | .all expected => p.looking .elements (p.collect expected)
  | .integer => replying .integer p.integer
  | .word => replying .word p.word
  | .oid => replying .oid p.oid
  | .octetString => replying .octets p.octetString
  | .algorithm => replying .algorithm p.algorithm
  | .peek => p.looking .octet (pure p.peek)
  | .finish => p.looking (fun _ => .nothing) p.finish
  | .rest => p.looking .octets p.rest

end Place

/-- A call on a walk. -/
inductive Walk.Call
  | read (r : Read)
  | enter (tag : UInt8)
  | leave
  | mark (name : String)
  | rewind (name : String)
deriving DecidableEq

/-- The place that a walk has come to, the places at which it goes on after the elements that it has
entered, and the places that it has marked. -/
structure Walk where
  place : Place
  outer : List Place
  marks : List (String × Place)
deriving DecidableEq

namespace Walk

/-- The start of a `buffer`. -/
def start (buffer : Bytes) (limits : Limits) : Walk := ⟨.ofBuffer buffer limits, [], []⟩

/-- What a call on `w` does. One cannot leave what was not entered, or come back to what was not
marked. -/
def call (w : Walk) : Call → Checked (Reply × Walk)
  | .read r => do
    let (reply, next) ← w.place.perform r
    return (reply, { w with place := next })
  | .enter tag => do
    let (inner, next) ← w.place.enter tag
    return (.nothing, { w with place := inner, outer := next :: w.outer })
  | .leave => do
    let next ← require w.outer.head?
    return (.nothing, { w with place := next, outer := w.outer.tail })
  | .mark name => return (.nothing, { w with marks := (name, w.place) :: w.marks })
  | .rewind name => do
    let marked ← require (w.marks.lookup name)
    return (.nothing, { w with place := w.place.rewind marked.mark })

/-- Makes a call `c` on `w`. -/
def turn (w : Walk) (c : Call) : Option (Except Error Reply × Walk) :=
  match (w.call c).run with
  | none => none
  | some (.error e) => some (.error e, w)
  | some (.ok (reply, next)) => some (.ok reply, next)

/-- Makes calls one after the other, `calls` also after a `c` that failed. -/
def run (w : Walk) : List Call → Option (List (Except Error Reply) × Walk)
  | [] => some ([], w)
  | c :: calls => do
    let (outcome, next) ← w.turn c
    let (outcomes, last) ← next.run calls
    return (outcome :: outcomes, last)

end Walk

end Pkix.Der
