import Pkix.Der.BitString
import Pkix.Der.Cursor
import Pkix.Oid.Codec
import Pkix.Time.Content

/-!
# What values say

`Value.integer`, `Value.boolean` and so on read a value as one of the universal types. They
require the type's tag and its one spelling of each content, except that `Value.magnitude` reads
an INTEGER whose writer left the sign out. `Cursor.integer` and its like read the next element.
-/

namespace Pkix.Der

namespace Value

/-- Refuses a value `v` without the `tag` of the type called `name`. -/
def require (v : Value) (tag : UInt8) (name : String) : Except Error Unit :=
  if v.is tag then .ok () else .error (.malformed (.unexpectedType name v.tag.octets))

/-- The number in the content of `v`, in two's complement of the fewest octets. -/
def signed (v : Value) : Except Error Int :=
  if v.content = [] then .error (.malformed .integerEmpty)
  else if BigEndian.isMinimal v.content then .ok (BigEndian.toInt v.content)
  else .error (.malformed .integerPadded)

/-- The INTEGER that `v` is. -/
def integer (v : Value) : Except Error Int := do
  v.require Tag.integer "INTEGER"
  v.signed

/-- The INTEGER that `v` is, its content a magnitude without a sign. -/
def magnitude (v : Value) : Except Error Nat := do
  v.require Tag.integer "INTEGER"
  if v.content = [] then .error (.malformed .integerEmpty)
  else return BigEndian.toNat v.content

/-- The INTEGER that `v` is, which fits 32 bits without a sign. -/
def word (v : Value) : Except Error UInt32 := do
  let n ← v.integer
  if 0 ≤ n ∧ n < UInt32.size then return UInt32.ofNat n.toNat
  else .error (.malformed (.integerRange n))

/-- The ENUMERATED that `v` is, which fits 64 bits with a sign. -/
def enumerated (v : Value) : Except Error Int64 := do
  v.require Tag.enumerated "ENUMERATED"
  let n ← v.signed
  if Int64.minValue.toInt ≤ n ∧ n ≤ Int64.maxValue.toInt then return Int64.ofInt n
  else .error (.malformed (.enumeratedRange n))

/-- The BOOLEAN that `v` is. -/
def boolean (v : Value) : Except Error Bool := do
  v.require Tag.boolean "BOOLEAN"
  match v.content with
  | [0x00] => return false
  | [0xFF] => return true
  | _ => .error (.malformed .booleanContent)

/-- Refuses a value `v` that is no NULL. -/
def null (v : Value) : Except Error Unit := do
  v.require Tag.null "NULL"
  if v.content = [] then return () else .error (.malformed .nullContent)

/-- The octets of the OCTET STRING that `v` is. -/
def octetString (v : Value) : Except Error Bytes := do
  v.require Tag.octetString "OCTET STRING"
  return v.content

/-- The octets of the BIT STRING that `v` is, without unused bits. -/
def wholeBits (v : Value) : Except Error Bytes := do
  v.require Tag.bitString "BIT STRING"
  match v.content with
  | 0 :: octets => return octets
  | _ => .error (.malformed .bitsUnaligned)

/-- The BIT STRING that `v` is. -/
def bitString (v : Value) : Except Error BitString := do
  v.require Tag.bitString "BIT STRING"
  match v.content with
  | [] => .error (.malformed .bitsEmpty)
  | unused :: octets => BitString.new octets unused

/-- The OBJECT IDENTIFIER that `v` is. -/
def oid (v : Value) : Except Error Oid := do
  v.require Tag.oid "OBJECT IDENTIFIER"
  Oid.ofContent v.content

/-- The UTCTime that `v` is. -/
def utcTime (v : Value) : Except Error Time := do
  v.require Tag.utcTime "UTCTime"
  Time.ofContent .utc v.content

/-- The GeneralizedTime that `v` is. -/
def generalizedTime (v : Value) : Except Error Time := do
  v.require Tag.generalizedTime "GeneralizedTime"
  Time.ofContent .generalized v.content

/-- The UTCTime or GeneralizedTime that `v` is. -/
def time (v : Value) : Except Error Time :=
  if v.is Tag.utcTime then v.utcTime else v.generalizedTime

/-- A cursor over the content of `v`, whose length is not checked again. -/
def cursor (v : Value) (limits : Limits) : Cursor := Cursor.ofBuffer v.content limits

/-- The elements of a constructed value `v`, in the order in which they are encoded. -/
def children (v : Value) (limits : Limits) : Except Error (List Value) :=
  if v.tag.constructed then (v.cursor limits).all
  else .error (.malformed (.notConstructed v.tag.octets))

end Value

namespace Cursor

/-- The element after `c`, an INTEGER. -/
def integer (c : Cursor) : Except Error (Int × Cursor) := do
  let (v, c) ← c.expect Tag.integer
  return (← v.integer, c)

/-- The element after `c`, an INTEGER of 32 bits. -/
def word (c : Cursor) : Except Error (UInt32 × Cursor) := do
  let (v, c) ← c.expect Tag.integer
  return (← v.word, c)

/-- The element after `c`, an OBJECT IDENTIFIER. -/
def oid (c : Cursor) : Except Error (Oid × Cursor) := do
  let (v, c) ← c.expect Tag.oid
  return (← Oid.ofContent v.content, c)

/-- The element after `c`, an OCTET STRING. -/
def octetString (c : Cursor) : Except Error (Bytes × Cursor) := do
  let (v, c) ← c.expect Tag.octetString
  return (v.content, c)

end Cursor

end Pkix.Der
