import Pkix.Der.Write

/-!
# Encoders

An encoder is a buffer that elements are appended to, one call at a time. A call that fails writes
nothing, and the calls after it go on where it was made. What is nested in an element is appended to
a buffer of its own first.

* `Encoder.push`, `Encoder.element`, `Encoder.bits`, `Encoder.value`: the ways in which identifier,
  length and content octets are written.
* `Encoder.Step`: a call; `Encoder.Step.put` makes it.
* `Encoder.session`: calls one after the other, with the outcome of each and the octets at the end.
-/

namespace Pkix.Der

/-- Writes to the end of a buffer. It may fail; what it wrote until then stays. -/
abbrev Encoder := ExceptT Error (StateM Bytes)

namespace Encoder

/-- The outcome and the buffer after `e` has written to a `buffer`. -/
def on (e : Encoder Unit) (buffer : Bytes) : Except Error Unit × Bytes := e.run.run buffer

/-- The octets that `e` writes to a fresh buffer. -/
def octets (e : Encoder Unit) : Bytes := (e.on []).2

/-- Appends the octets `b`. -/
def push (b : Bytes) : Encoder Unit := modify (· ++ b)

/-- Appends an element under a `tag` octet. -/
def element (tag : UInt8) (content : Bytes) : Encoder Unit := do
  push [tag]
  push (Length.octets content.length)
  push content

/-- Appends a BIT STRING of `octets` with so many `unused` bits. -/
def bits (unused : UInt8) (octets : Bytes) : Encoder Unit := do
  push [Tag.bitString]
  push (Length.octets (octets.length + 1))
  push [unused]
  push octets

/-- Appends a value `v` with the octets of its tag. -/
def value (v : Value) : Encoder Unit := do
  push v.tag.octets
  push (Length.octets v.content.length)
  push v.content

/-- Appends the octets of one element with another `tag` octet; no octets, no element. -/
def retagged (tag : UInt8) : Bytes → Encoder Unit
  | [] => pure ()
  | _ :: rest => do
    push [tag]
    push rest

/-- A call on an encoder. -/
inductive Step
  | integer (n : Int)
  | word (n : UInt32)
  | enumerated (n : Int64)
  | boolean (b : Bool)
  | null
  | oid (id : Oid)
  | octetString (b : Bytes)
  /-- A BIT STRING of whole octets `b`. -/
  | wholeBits (b : Bytes)
  | bitString (s : BitString)
  /-- A BIT STRING whose trailing zero bits do not count. -/
  | namedBits (s : BitString)
  | utcTime (t : Time)
  | generalizedTime (t : Time)
  | value (v : Value)
  /-- Octets as they are. -/
  | raw (b : Bytes)
  | sequence (vs : List Value)
  /-- A set of `vs` under a `tag` octet. -/
  | setOf (tag : UInt8) (vs : List Value)
  /-- What another encoder wrote by `steps`, under a `tag` octet. -/
  | write (tag : UInt8) (steps : List Step)
  /-- The one element that another encoder wrote by `steps`, under another `tag` octet. -/
  | implicit (tag : UInt8) (steps : List Step)
deriving Inhabited

mutual

/-- Makes a call. -/
def Step.put : Step → Encoder Unit
  | .integer n => element Tag.integer (BigEndian.ofInt n)
  | .word n => element Tag.integer (BigEndian.ofInt n.toNat)
  | .enumerated n => element Tag.enumerated (BigEndian.ofInt n.toInt)
  | .boolean b => element Tag.boolean [if b then 0xFF else 0x00]
  | .null => element Tag.null []
  | .oid id => element Tag.oid id.content
  | .octetString b => element Tag.octetString b
  | .wholeBits b => bits 0 b
  | .bitString s => bits s.unused s.octets
  | .namedBits s => bits s.truncated.unused s.truncated.octets
  | .utcTime t => do element Tag.utcTime (← t.utcContent)
  | .generalizedTime t => do element Tag.generalizedTime (← t.generalizedContent)
  | .value v => Encoder.value v
  | .raw b => push b
  | .sequence vs => element Tag.sequence (octets (vs.forM Encoder.value))
  | .setOf tag vs => element tag (octets ((SetOrder.sort (vs.map Value.octets)).forM push))
  | .write tag steps => element tag (session steps []).2
  | .implicit tag steps => retagged tag (session steps []).2

/-- Makes calls one after the other, `steps` also after a `step` that failed. -/
def session : List Step → Bytes → List (Except Error Unit) × Bytes
  | [], buffer => ([], buffer)
  | step :: steps, buffer =>
    let (outcome, buffer) := step.put.on buffer
    let (outcomes, buffer) := session steps buffer
    (outcome :: outcomes, buffer)

end

end Encoder

end Pkix.Der
