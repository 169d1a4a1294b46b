import Pkix.Der.Value

/-!
# Character strings

Seven types of values are text. Four of them are read as UTF-8, of which ASCII is a part; Teletex
strings one octet a character; BMP strings as UTF-16 and universal strings as UTF-32, most
significant octet first.

* `Value.isText`: the value has one of the seven types.
* `Value.text`: the text.
-/

namespace Pkix.Der

/-- How the octets of a character string stand for text. -/
inductive Charset
  | utf8
  | latin1
  | utf16
  | utf32
deriving DecidableEq, Repr

namespace Charset

/-- The character with the number `n`, surrogates excluded. -/
def charOf? (n : Nat) : Option Char := if n.isValidChar then some (Char.ofNat n) else none

/-- Reads 16-bit units onto the characters `done`, which are in reverse. A unit of the high
surrogates and the unit of the low surrogates after it are one character. -/
def utf16Chars? : Bytes → List Char → Option (List Char)
  | [], done => some done.reverse
  | [_], _ => none
  | a :: b :: rest, done =>
    let unit := a.toNat * 256 + b.toNat
    if 0xD800 ≤ unit ∧ unit < 0xDC00 then
      match rest with
      | c :: d :: rest =>
        let low := c.toNat * 256 + d.toNat
        if 0xDC00 ≤ low ∧ low < 0xE000 then
          utf16Chars? rest
            (Char.ofNat (0x10000 + (unit - 0xD800) * 1024 + (low - 0xDC00)) :: done)
        else none
      | _ => none
    else
      match charOf? unit with
      | some ch => utf16Chars? rest (ch :: done)
      | none => none

/-- Reads 32-bit units onto the characters `done`, which are in reverse. -/
def utf32Chars? : Bytes → List Char → Option (List Char)
  | [], done => some done.reverse
  | a :: b :: c :: d :: rest, done =>
    match charOf? (((a.toNat * 256 + b.toNat) * 256 + c.toNat) * 256 + d.toNat) with
    | some ch => utf32Chars? rest (ch :: done)
    | none => none
  | _, _ => none

/-- The text that octets stand for. -/
def decode? : Charset → Bytes → Option String
  | .utf8, b => b.toString?
  | .latin1, b => some (String.ofList (b.map fun x => Char.ofNat x.toNat))
  | .utf16, b => (utf16Chars? b []).map String.ofList
  | .utf32, b => (utf32Chars? b []).map String.ofList

end Charset

/-- The character set of a type `t` of character strings. -/
def Tag.charset? (t : Tag) : Option Charset :=
  if t.isOctet Tag.utf8String ∨ t.isOctet Tag.printableString ∨ t.isOctet Tag.ia5String ∨
    t.isOctet Tag.visibleString then some .utf8
  else if t.isOctet Tag.teletexString then some .latin1
  else if t.isOctet Tag.bmpString then some .utf16
  else if t.isOctet Tag.universalString then some .utf32
  else none

namespace Value

/-- The value `v` is a character string. -/
def isText (v : Value) : Bool := v.tag.charset?.isSome

/-- The text of a character string `v`. -/
def text (v : Value) : Except Error String :=
  match v.tag.charset? with
  | none => .error (.malformed (.notString v.tag.octets))
  | some charset =>
    match charset.decode? v.content with
    | some s => .ok s
    | none => .error (.malformed (.stringContent v.tag.octets))

end Value

end Pkix.Der
