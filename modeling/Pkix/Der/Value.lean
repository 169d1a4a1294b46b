import Pkix.BigEndian
import Pkix.Der.Tag
import Pkix.Error

/-!
# Values

A value is a tag and the exact content octets of an element. The content of a constructed value
stays as it is until its children are asked for.

A length below 128 is one octet. A longer one is an octet that counts the octets of the number,
plus 128, and then the number to the base 256 in as few octets as possible. The reader takes
numbers of at most four octets and only in their shortest form, so a length has one spelling.

* `Length.octets`, `Length.ofOctets`: writing and reading a length.
* `Value.octets`: identifier, length and content octets; `Value.size` counts them.
* `Value.first`: the value whose encoding the octets begin with. Tags and lengths have one
  spelling, so the octets begin with `(Value.first b).octets`.
-/

namespace Pkix.Der

namespace Length

/-- The length octets of a content of `n` octets. -/
def octets (n : Nat) : Bytes :=
  if n < 128 then [UInt8.ofNat n]
  else
    let digits := BigEndian.ofNat n
    UInt8.ofNat (128 + digits.length) :: digits

/-- The length at the start of the octets and the octets after it. -/
def ofOctets : Bytes → Except Error (Nat × Bytes)
  | [] => .error (.malformed .lengthMissing)
  | x :: rest =>
    if x < 0x80 then .ok (x.toNat, rest)
    else if x = 0x80 then .error (.malformed .lengthIndefinite)
    else if 0x84 < x then .error (.malformed .lengthTooLong)
    else
      let count := x.toNat - 128
      let digits := rest.take count
      if digits.length < count then .error (.malformed .lengthTruncated)
      else
        let n := BigEndian.toNat digits
        if digits.head? = some 0 ∨ n < 128 then .error (.malformed .lengthPadded)
        else .ok (n, rest.drop count)

end Length

/-- How much a decoder takes on. -/
structure Limits where
  /-- The longest input that is looked at. -/
  maxInput : Nat
  /-- The most elements that one constructed value may have. -/
  maxElements : Nat
deriving DecidableEq, Repr

namespace Limits

/-- 64 MiB of input and 65536 elements. -/
def default : Limits := ⟨64 * 1024 * 1024, 65536⟩

/-- Refuses an input `b` that is too long. -/
def check (limits : Limits) (b : Bytes) : Except Error Unit :=
  if limits.maxInput < b.length then
    .error (.malformed (.inputTooLong b.length limits.maxInput))
  else .ok ()

end Limits

/-- One element: a `tag` and `content` octets. -/
structure Value where
  tag : Tag
  content : Bytes
deriving DecidableEq, Repr

namespace Value

/-- The value with the tag that the octet `tag` spells. -/
def ofOctet (tag : UInt8) (content : Bytes) : Value := ⟨Tag.ofOctet tag, content⟩

/-- The value `v` has the tag that the octet `tag` spells. -/
def is (v : Value) (tag : UInt8) : Bool := v.tag.isOctet tag

/-- The content of `v` under another `tag`, as in IMPLICIT tagging. -/
def retag (v : Value) (tag : UInt8) : Value := ofOctet tag v.content

/-- The identifier and length octets of `v`. -/
def header (v : Value) : Bytes := v.tag.octets ++ Length.octets v.content.length

/-- The encoding of `v`: identifier, length and content octets. -/
def octets (v : Value) : Bytes := v.header ++ v.content

/-- The number of octets of the encoding of `v`. -/
def size (v : Value) : Nat := v.header.length + v.content.length

theorem length_octets (v : Value) : v.octets.length = v.size := by simp [octets, size]

theorem size_pos (v : Value) : 0 < v.size := by
  have : 0 < v.tag.octets.length := by unfold Tag.octets; split <;> simp
  simp only [size, header, List.length_append]
  omega

/-- Tag and content of `v` in hexadecimal digits. -/
def describe (v : Value) : String :=
  "DerValue \x7b tag: 0x" ++ v.tag.octets.toHex ++ ", content: \"" ++ v.content.toHex ++
    "\" \x7d"

/-- The value whose encoding the octets `b` begin with. -/
def first (b : Bytes) : Except Error Value := do
  let (tag, b) ← Tag.ofOctets b
  let (length, b) ← Length.ofOctets b
  let content := b.take length
  if content.length < length then .error (.malformed (.overrun length b.length))
  else .ok ⟨tag, content⟩

end Value

end Pkix.Der
