import Pkix.Der.Primitive
import Pkix.Der.Text
import Pkix.Oid.Known

/-!
# Directory names

A name is a sequence of relative names, from the most general to the most specific; a relative
name is a set of assertions, each of which gives an attribute a value. A name keeps the octets it
was read from, so that writing it is exact.

* `Name.ofValue`, `Name.ofOctets`: reading, with limits on the number of elements.
* `Name.attribute?`: the text of an attribute, looked for from the most specific end.
* `Name.same`: names with the same relative names one by one. Relative names are compared as sets
  of assertions. Two assertions are the same if they are about one attribute and have the same text
  up to blanks and ASCII case; where one of them is no text, the values must be the same octets
  under the same tag.
-/

namespace Pkix

open Der

/-- An attribute, by its `type`, and its `value`. -/
structure Assertion where
  type : Oid
  value : Value
deriving DecidableEq

/-- The `assertions` that tell an entry from its siblings. -/
structure RelativeName where
  assertions : List Assertion
deriving DecidableEq

/-- The name of an entry of a directory. -/
structure Name where
  /-- The relative names, the most general first. -/
  rdns : List RelativeName
  /-- The encoding. -/
  octets : Bytes

/-- Reads an assertion from the value `v`. -/
def Assertion.ofValue (v : Value) : Except Error Assertion := do
  if v.is Tag.sequence then
    let (type, c) ← (v.cursor .default).oid
    let (value, c) ← c.value
    c.finish
    return ⟨type, value⟩
  else .error (.malformed (.wrongStructure .attributeAssertion))

/-- Reads a relative name from the value `v`; it has at least one assertion. -/
def RelativeName.ofValue (limits : Limits) (v : Value) : Except Error RelativeName := do
  if v.is Tag.set then
    let assertions ← (← v.children limits).mapM Assertion.ofValue
    if assertions.isEmpty then .error (.malformed .rdnEmpty)
    else return ⟨assertions⟩
  else .error (.malformed (.wrongStructure .rdn))

namespace Name

/-- Reads a name from the value `v`. -/
def ofValue (limits : Limits) (v : Value) : Except Error Name := do
  if v.is Tag.sequence then
    let rdns ← (← v.children limits).mapM (RelativeName.ofValue limits)
    return ⟨rdns, v.octets⟩
  else .error (.malformed (.wrongStructure .name))

/-- Reads a name from its encoding, `b`. -/
def ofOctets (b : Bytes) : Except Error Name := do ofValue .default (← decode b)

/-- The assertions of `n` from the most specific relative name on; in each, as they are encoded. -/
def bySpecificity (n : Name) : List Assertion := n.rdns.reverse.flatMap RelativeName.assertions

/-- The text of the most specific assertion of `n` about an attribute `type`, if its value is
text. -/
def attribute? (n : Name) (type : Oid) : Option String :=
  match n.bySpecificity.find? (·.type == type) with
  | some a => a.value.text.toOption
  | none => none

/-- The text of the common name in `n`. -/
def commonName? (n : Name) : Option String := n.attribute? Oid.commonName

end Name

/-! ## Comparing names -/

/-- The assertions `a` and `b` give one attribute the same value. -/
def Assertion.same (a b : Assertion) : Bool :=
  a.type == b.type && match a.value.text, b.value.text with
    | .ok s, .ok t => Text.normalize s == Text.normalize t
    | _, _ => a.value == b.value

/-- As many assertions in `a` as in `b`, and each has a match in the other relative name. -/
def RelativeName.same (a b : RelativeName) : Bool :=
  a.assertions.length == b.assertions.length &&
    a.assertions.all (fun x => b.assertions.any (x.same ·)) &&
    b.assertions.all (fun y => a.assertions.any (y.same ·))

/-- The relative names of `a` and `b` are the same one by one. -/
def Name.same (a b : Name) : Bool :=
  a.rdns.length == b.rdns.length && (a.rdns.zip b.rdns).all fun (x, y) => x.same y

instance : BEq Name := ⟨Name.same⟩

end Pkix
