import Pkix.Der.Write
import Pkix.Name.Basic

/-!
# Names in the string form of RFC 4514

The string form lists relative names from the most specific to the most general one, separated by
commas, and assertions within one separated by plus signs. A backslash takes away the meaning of
the character after it, or stands before two hexadecimal digits of an octet.

* `Rfc4514.parse`: the relative names of a string. A separator counts unless the octet before it is
  a backslash that does not itself follow a backslash; no more of the string is looked at.
* `Name.ofRelativeNames`: the name with the given relative names.
-/

namespace Pkix

open Der

namespace Rfc4514

/-- Cuts octets at the separators that count. `piece` is the piece so far, in reverse; `x` and `y`
are the two octets before, 0 before the start. -/
def splitFrom (separator : UInt8) (piece : Bytes) (x y : UInt8) : Bytes → List Bytes
  | [] => [piece.reverse]
  | c :: rest =>
    if c = separator ∧ (y ≠ 0x5C ∨ x = 0x5C) then piece.reverse :: splitFrom separator [] y c rest
    else splitFrom separator (c :: piece) y c rest

/-- The pieces of `b` between the separators that count. -/
def split (separator : UInt8) (b : Bytes) : List Bytes := splitFrom separator [] 0 0 b

/-- The octets that stand for themselves after a backslash: space and `"#=\+,;<>`. -/
def specials : Bytes := [0x20, 0x22, 0x23, 0x3D, 0x5C, 0x2B, 0x2C, 0x3B, 0x3C, 0x3E]

/-- The value of a hexadecimal digit `x`. -/
def hexValue? (x : UInt8) : Option Nat := Bytes.hexValue? (Char.ofNat x.toNat)

/-- Takes away backslashes, onto the octets `done`, which are in reverse. A backslash at the end,
alone or before a single digit, is dropped. -/
def unescapeFrom : Bytes → Bytes → Option Bytes
  | [], done => some done.reverse
  | c :: rest, done =>
    if c ≠ 0x5C then unescapeFrom rest (c :: done)
    else match rest with
      | [] => some done.reverse
      | d :: rest =>
        if specials.contains d then unescapeFrom rest (d :: done)
        else match hexValue? d, rest with
          | none, _ => none
          | some _, [] => some done.reverse
          | some hi, e :: rest =>
            match hexValue? e with
            | none => none
            | some lo => unescapeFrom rest (UInt8.ofNat (hi * 16 + lo) :: done)

/-- The short names of attributes. -/
def shortNames : List (String × Oid) := [
  ("CN", Oid.commonName), ("OU", Oid.organizationalUnit), ("O", Oid.organization),
  ("L", Oid.locality), ("ST", Oid.state), ("C", Oid.country), ("STREET", Oid.street),
  ("DC", Oid.domainComponent), ("UID", Oid.userId)]

/-- The attribute of a short name or a dotted identifier, `key`. -/
def type? (key : String) : Option Oid :=
  match shortNames.lookup key with
  | some o => some o
  | none => (Oid.ofText key).toOption

/-- The value for the octets after the equals sign. A country is a PrintableString, another
attribute a UTF8String; `#` begins the digits of an encoding. -/
def value? (type : Oid) (b : Bytes) : Option Value :=
  match b with
  | 0x23 :: digits => do
    let text ← Bytes.toString? digits
    let encoding ← Bytes.ofHex? text
    (decode encoding).toOption
  | _ =>
    (unescapeFrom b []).map fun content =>
      Value.ofOctet (if type = Oid.country then Tag.printableString else Tag.utf8String) content

/-- The assertion of a piece `b`: a key, an equals sign and a value. -/
def assertion? (b : Bytes) : Option Assertion :=
  match b.span (· ≠ 0x3D) with
  | (key, _ :: valueOctets) => do
    let type ← type? (← Bytes.toString? key)
    return ⟨type, ← value? type valueOctets⟩
  | (_, []) => none

/-- The relative names of a string `s`, the most general first. -/
def parse (s : String) : Except Error (List RelativeName) :=
  let pieces := (split 0x2C (Bytes.ofString s)).mapM fun piece =>
    (split 0x2B piece).mapM assertion?
  match pieces with
  | some rdns => .ok (rdns.map RelativeName.mk).reverse
  | none => .error (.invalidInput .nameText)

end Rfc4514

/-- The encoding of an assertion `a`. -/
def Assertion.octets (a : Assertion) : Bytes :=
  Write.element Tag.sequence (Write.oid a.type ++ a.value.octets)

/-- The encoding of a relative name `r`, its assertions in canonical order. -/
def RelativeName.octets (r : RelativeName) : Bytes :=
  Write.setOf Tag.set (r.assertions.map Assertion.octets)

/-- The encoding of the name with the relative names `rdns`. -/
def Name.encode (rdns : List RelativeName) : Bytes :=
  Write.element Tag.sequence (rdns.flatMap RelativeName.octets)

/-- The name with the relative names `rdns`. -/
def Name.ofRelativeNames (rdns : List RelativeName) : Except Error Name :=
  Name.ofOctets (Name.encode rdns)

end Pkix
