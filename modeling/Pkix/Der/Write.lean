import Pkix.Der.BitString
import Pkix.Der.Value
import Pkix.Oid.Codec
import Pkix.Time.Content

/-!
# Writing elements

Each function gives the complete encoding of one element; a structure is written by wrapping the
encodings of its fields.

* `Write.element`: any content under a tag octet.
* `Write.implicit`: an element under another tag octet.
* `Write.setOf`: elements in canonical order, which `SetOrder.cmp` defines: by class and number of
  the tag, then by the octets after the tag.
-/

namespace Pkix.Der

/-! ## The order of the elements of a SET OF -/

/-- Compares two encodings `a` and `b`: classes, then tag numbers, then all octets after the tag.
Whether an element is constructed does not count. -/
def SetOrder.cmp (a b : Bytes) : Ordering :=
  match Tag.ofOctets a, Tag.ofOctets b with
  | .ok (s, arest), .ok (t, brest) =>
    (compare s.cls.index t.cls.index).then ((compare s.number t.number).then (arest.cmp brest))
  | _, _ => a.cmp b

/-- Sorts `encodings`; those that compare equal keep their order. -/
def SetOrder.sort (encodings : List Bytes) : List Bytes :=
  encodings.mergeSort fun a b => SetOrder.cmp a b != .gt

namespace Write

/-- The `content` under a `tag` octet. -/
def element (tag : UInt8) (content : Bytes) : Bytes :=
  tag :: (Length.octets content.length ++ content)

/-- The INTEGER `n`. -/
def integer (n : Int) : Bytes := element Tag.integer (BigEndian.ofInt n)

/-- The INTEGER `n` of 32 bits without a sign. -/
def word (n : UInt32) : Bytes := integer n.toNat

/-- The ENUMERATED `n`. -/
def enumerated (n : Int64) : Bytes := element Tag.enumerated (BigEndian.ofInt n.toInt)

/-- The BOOLEAN `b`. -/
def boolean (b : Bool) : Bytes := element Tag.boolean [if b then 0xFF else 0x00]

/-- The NULL. -/
def null : Bytes := element Tag.null []

/-- The OBJECT IDENTIFIER `id`. -/
def oid (id : Oid) : Bytes := element Tag.oid id.content

/-- The OCTET STRING of the octets `b`. -/
def octetString (b : Bytes) : Bytes := element Tag.octetString b

/-- The BIT STRING of whole octets `b`. -/
def wholeBits (b : Bytes) : Bytes := element Tag.bitString (0 :: b)

/-- The BIT STRING `s`. -/
def bitString (s : BitString) : Bytes := element Tag.bitString (s.unused :: s.octets)

/-- The BIT STRING `s` where trailing zero bits do not count, so they are left out. -/
def namedBits (s : BitString) : Bytes := bitString s.truncated

/-- The UTCTime of `t`. -/
def utcTime (t : Time) : Except Error Bytes := return element Tag.utcTime (← t.utcContent)

/-- The GeneralizedTime of `t`. -/
def generalizedTime (t : Time) : Except Error Bytes :=
  return element Tag.generalizedTime (← t.generalizedContent)

/-- The UTCTime of `t` up to 2049 on its own clock, its GeneralizedTime after. -/
def time (t : Time) : Except Error Bytes :=
  if t.localYear < 2050 then utcTime t else generalizedTime t

/-- The element `encoding` under another `tag` octet, which replaces its first octet. There is
nothing to write for no element. -/
def implicit (tag : UInt8) (encoding : Bytes) : Bytes :=
  match encoding with
  | [] => []
  | _ :: rest => tag :: rest

/-- The encodings of the values `vs`, one after the other. -/
def values (vs : List Value) : Bytes := vs.flatMap Value.octets

/-- The SEQUENCE of the values `vs`. -/
def sequence (vs : List Value) : Bytes := element Tag.sequence (values vs)

/-- The `encodings` in canonical order, under a `tag` octet. -/
def setOf (tag : UInt8) (encodings : List Bytes) : Bytes :=
  element tag (SetOrder.sort encodings).flatten

end Write

end Pkix.Der
