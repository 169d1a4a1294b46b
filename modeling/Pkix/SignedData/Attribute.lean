import Pkix.Der.Primitive
import Pkix.Der.Write
import Pkix.Oid.Known

/-!
# Attributes of signers

A signer may attach attributes to a signature. Those that are authenticated are what is signed, so
a set of attributes keeps its encoding; what was received is kept as it was received, under the
tag of a SET.

* `Attribute`: an identifier with values, at least one where it was read.
* `AttributeSet`: attributes with different identifiers, and the encoding of them as a SET.
-/

namespace Pkix

open Der

/-- An attribute `id` with its `values`. -/
structure Attribute where
  id : Oid
  values : List Value
deriving DecidableEq

namespace Attribute

/-- The attribute for the `type` of the content that is signed. -/
def contentType (type : Oid) : Attribute :=
  ⟨Oid.contentType, [Value.ofOctet Tag.oid type.content]⟩

/-- The attribute for the `digest` of the content that is signed. -/
def messageDigest (digest : Bytes) : Attribute :=
  ⟨Oid.messageDigest, [Value.ofOctet Tag.octetString digest]⟩

/-- The attribute for the time `t` at which the signature was made. -/
def signingTime (t : Time) : Except Error Attribute :=
  return ⟨Oid.signingTime, [← decode (← Write.time t)]⟩

/-- Reads an attribute from the value `v`. -/
def ofValue (limits : Limits) (v : Value) : Except Error Attribute := do
  if v.is Tag.sequence then
    let (id, c) ← (v.cursor limits).oid
    let (values, c) ← c.setOf
    c.finish
    if values.isEmpty then .error (.malformed (.attributeWithoutValues id))
    else return ⟨id, values⟩
  else .error (.malformed (.wrongStructure .attribute))

/-- The encoding of `a`, the values in canonical order. -/
def octets (a : Attribute) : Bytes :=
  Write.element Tag.sequence
    (Write.oid a.id ++ Write.setOf Tag.set (a.values.map Value.octets))

/-- The identifiers that are shown by name. -/
def names : List (Oid × String) :=
  [(Oid.contentType, "ContentType"), (Oid.messageDigest, "MessageDigest"),
    (Oid.signingTime, "SigningTime")]

/-- The name of the attribute `a`, or the identifier where there is none. -/
def name (a : Attribute) : String := (names.lookup a.id).getD a.id.text

/-- A point in time as text, nothing for a value `v` of another type. There is no answer for one
beyond the calendar. -/
def timeText? (v : Value) : Except Error (Option String) :=
  match v.time with
  | .ok t => .ok (some t.text)
  | .error .beyondCalendar => .error .beyondCalendar
  | .error _ => .ok none

/-- A value `v` as the attribute `a` would have it, if it is of the right type. -/
def meaning? (a : Attribute) (v : Value) : Except Error (Option String) :=
  if a.id = Oid.contentType then .ok (v.oid.toOption.map Oid.text)
  else if a.id = Oid.signingTime then timeText? v
  else if a.id = Oid.messageDigest then .ok (v.octetString.toOption.map Bytes.toHex)
  else .ok none

/-- Name and values of `a`; a value of another type is shown by its encoding. -/
def text (a : Attribute) : Except Error String := do
  let values ← a.values.mapM fun v => return (← a.meaning? v).getD v.octets.toHex
  return "[" ++ a.name ++ ": " ++ ", ".intercalate values ++ "]"

/-- The first identifier that an earlier attribute has too, among the identifiers `seen` and those
of the list. -/
def repeatedFrom (seen : List Oid) : List Attribute → Option Oid
  | [] => none
  | a :: rest => if seen.contains a.id then some a.id else repeatedFrom (a.id :: seen) rest

/-- The first identifier in `as` that an earlier attribute has too. -/
def repeated? (as : List Attribute) : Option Oid := repeatedFrom [] as

end Attribute

/-- A set of `attributes`. -/
structure AttributeSet where
  attributes : List Attribute
  /-- The encoding as a SET, over which a signature is made. -/
  encoded : Bytes
  /-- No two of the `attributes` have the same identifier. -/
  distinct : Attribute.repeated? attributes = none
deriving DecidableEq

namespace AttributeSet

/-- The set of the given `attributes`, in canonical order when it is written. -/
def new (attributes : List Attribute) : Except Error AttributeSet :=
  match h : Attribute.repeated? attributes with
  | some id => .error (.invalidInput (.attributeRepeated id))
  | none => .ok ⟨attributes, Write.setOf Tag.set (attributes.map Attribute.octets), h⟩

/-- Reads a set from the value `v`, under whatever tag. -/
def ofValue (limits : Limits) (v : Value) : Except Error AttributeSet := do
  let set := v.retag Tag.set
  let attributes ← (← set.children limits).mapM (Attribute.ofValue limits)
  match h : Attribute.repeated? attributes with
  | some id => .error (.malformed (.attributeRepeated id))
  | none => return ⟨attributes, set.octets, h⟩

/-- The attribute of `s` with an identifier `id`. -/
def get? (s : AttributeSet) (id : Oid) : Option Attribute := s.attributes.find? (·.id == id)

/-- What the first value of the attribute `id` says, if the attribute is there. -/
def single (s : AttributeSet) (id : Oid) (read : Value → Except Error α) :
    Except Error (Option α) :=
  match (s.get? id).bind (·.values.head?) with
  | none => .ok none
  | some v => return some (← read v)

/-- The type of the content that is signed, as `s` says. -/
def contentType (s : AttributeSet) : Except Error (Option Oid) :=
  s.single Oid.contentType Value.oid

/-- The digest of the content that is signed, as `s` says. -/
def messageDigest (s : AttributeSet) : Except Error (Option Bytes) :=
  s.single Oid.messageDigest Value.octetString

/-- When the signature was made, as `s` says. -/
def signingTime (s : AttributeSet) : Except Error (Option Time) :=
  s.single Oid.signingTime Value.time

/-- The encoding of `s` under another `tag` octet. -/
def implicit (s : AttributeSet) (tag : UInt8) : Except Error Bytes :=
  return ((← decode s.encoded).retag tag).octets

/-- The attributes of `s` line by line. -/
def text (s : AttributeSet) : Except Error String := do
  let lines ← s.attributes.mapM fun a => return "\t" ++ (← a.text) ++ "\n"
  return "PKCS9 Attributes: [\n" ++ String.join lines ++ "\t]\n"

end AttributeSet

end Pkix
