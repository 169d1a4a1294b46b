import Pkix.Base128
import Pkix.Error

/-!
# Tags

A tag has a class, a bit that says whether the content is itself made of elements, and a 32-bit
number. Numbers below 31 are written into the first identifier octet; others follow it to the
base 128.

* `Tag.ofOctet`: the tag that one octet spells when it is taken for the whole identifier.
* `Tag.octets`/`Tag.ofOctets`: the identifier octets of a tag, and the tag at the start of octets
  with the octets after it.
-/

namespace Pkix.Der

/-- The four classes of tags. -/
inductive TagClass
  | universal
  | application
  | context
  | privateUse
deriving DecidableEq, Repr

namespace TagClass

/-- The classes, in the order of their bits. -/
def all : List TagClass := [.universal, .application, .context, .privateUse]

/-- The name of a class. -/
def name : TagClass → String
  | .universal => "universal"
  | .application => "application"
  | .context => "context"
  | .privateUse => "private"

/-- The two high bits of the first identifier octet, as a number below 4, which `ofIndex` takes
back. -/
def index : TagClass → Nat
  | .universal => 0
  | .application => 1
  | .context => 2
  | .privateUse => 3

/-- The class with the given two bits. -/
def ofIndex : Nat → TagClass
  | 0 => .universal
  | 1 => .application
  | 2 => .context
  | _ => .privateUse

theorem ofIndex_index (c : TagClass) : ofIndex c.index = c := by cases c <;> rfl

theorem index_lt (c : TagClass) : c.index < 4 := by cases c <;> decide

end TagClass

/-- The tag of an element. -/
structure Tag where
  cls : TagClass
  constructed : Bool
  number : UInt32
deriving DecidableEq, Repr

namespace Tag

/-- The tag spelt by one octet `x`: two bits of class, one for constructed, five of number. -/
def ofOctet (x : UInt8) : Tag where
  cls := TagClass.ofIndex (x.toNat / 64)
  constructed := x.toNat / 32 % 2 == 1
  number := UInt32.ofNat (x.toNat % 32)

/-- The first identifier octet of `t`, with the five bits `low`. -/
def lead (t : Tag) (low : Nat) : UInt8 :=
  UInt8.ofNat (t.cls.index * 64 + (if t.constructed then 32 else 0) + low)

/-- The identifier octets of `t`. -/
def octets (t : Tag) : Bytes :=
  if t.number.toNat < 31 then [t.lead t.number.toNat]
  else t.lead 31 :: Base128.encode t.number.toNat

/-- What a fault in a long tag number says about the tag. -/
def faultCause : Base128.Fault → Malformed
  | .truncated => .tagTruncated
  | .padded => .tagPadded
  | .tooLarge => .tagTooLarge

/-- The tag at the start of the octets and the octets after it. -/
def ofOctets : Bytes → Except Error (Tag × Bytes)
  | [] => .error (.malformed .tagMissing)
  | x :: rest =>
    if x.toNat % 32 ≠ 31 then .ok (ofOctet x, rest)
    else match Base128.decode UInt32.size rest with
      | .error fault => .error (.malformed (faultCause fault))
      | .ok (n, after) =>
        if n < 31 then .error (.malformed .tagNotShort)
        else .ok ({ ofOctet x with number := UInt32.ofNat n }, after)

/-- The tag `t` is the one that the octet `x` spells. -/
def isOctet (t : Tag) (x : UInt8) : Bool := t == ofOctet x

/-- The tag `t` is the context-specific tag with the given `number`, constructed or not. -/
def isContext (t : Tag) (number : Nat) : Bool := t.cls == .context && t.number.toNat == number

end Tag

/-! ## The tags of the universal types -/

namespace Tag

def boolean : UInt8 := 0x01
def integer : UInt8 := 0x02
def bitString : UInt8 := 0x03
def octetString : UInt8 := 0x04
def null : UInt8 := 0x05
def oid : UInt8 := 0x06
def enumerated : UInt8 := 0x0A
def utf8String : UInt8 := 0x0C
def printableString : UInt8 := 0x13
def teletexString : UInt8 := 0x14
def ia5String : UInt8 := 0x16
def utcTime : UInt8 := 0x17
def generalizedTime : UInt8 := 0x18
def visibleString : UInt8 := 0x1A
def universalString : UInt8 := 0x1C
def bmpString : UInt8 := 0x1E
def sequence : UInt8 := 0x30
def set : UInt8 := 0x31

/-- The octet of the context-specific tag with a `number` below 31. -/
def contextOctet (number : Nat) (constructed : Bool) : UInt8 :=
  UInt8.ofNat (128 + (if constructed then 32 else 0) + number % 32)

end Tag

end Pkix.Der
