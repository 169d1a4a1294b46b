import Pkix.Der.Primitive
import Pkix.Der.Write
import Pkix.Oid.Known

/-!
# Contents of signed data

A content has a type and a value, which is missing where the content travels on its own.

* `Grammar`: the two wire forms of signed data. They differ in how the content is wrapped, how
  certificates are listed and where a signer has stray sets.
* `ContentInfo.read`, `ContentInfo.octets`: reading and writing.
-/

namespace Pkix

open Der

/-- The wire forms of signed data. -/
inductive Grammar
  | current
  /-- A form of early producers, which is read but not written. -/
  | legacy
deriving DecidableEq, Repr

/-- A content with its `type`. -/
structure ContentInfo where
  type : Oid
  content : Option Value
deriving DecidableEq

namespace ContentInfo

/-- The tag octet around a content. -/
def wrapper : UInt8 := Tag.contextOctet 0 true

/-- The octets `b`, as an OCTET STRING. -/
def data (b : Bytes) : ContentInfo := ⟨Oid.data, some (Value.ofOctet Tag.octetString b)⟩

/-- Octets that travel on their own. -/
def detached : ContentInfo := ⟨Oid.data, none⟩

/-- The octets of a content `c` that is an OCTET STRING. -/
def bytes? (c : ContentInfo) : Option Bytes := c.content.bind fun v => v.octetString.toOption

/-- Reads the content proper after `c`, which may be missing. In the `legacy` form it may lack the
wrapper. -/
def readContent (c : Cursor) (g : Grammar) : Except Error (Option Value × Cursor) := do
  match c.peek with
  | none => return (none, c)
  | some x =>
    if x = wrapper then
      let (inner, after) ← c.enter wrapper
      let (v, inner) ← inner.value
      inner.finish
      return (some v, after)
    else if g = .legacy then
      let (v, after) ← c.value
      return (some v, after)
    else .error (.malformed (.contentTag x))

/-- Reads a content with its type after `c`. -/
def read (c : Cursor) (g : Grammar) : Except Error (ContentInfo × Cursor) := do
  let (body, next) ← c.enter Tag.sequence
  let (type, body) ← body.oid
  let (content, body) ← readContent body g
  body.finish
  return (⟨type, content⟩, next)

/-- Reads a content with its type from its encoding, `b`. -/
def ofOctets (b : Bytes) : Except Error ContentInfo := do
  let (info, c) ← read (Cursor.ofBuffer b .default) .current
  c.finish
  return info

/-- The encoding of `c`. -/
def octets (c : ContentInfo) : Bytes :=
  Write.element Tag.sequence (Write.oid c.type ++
    match c.content with
    | some v => Write.element wrapper v.octets
    | none => [])

/-- Type and content of `c` in hexadecimal digits. -/
def text (c : ContentInfo) : String :=
  "Content Info Sequence\n\tContent type: " ++ c.type.text ++ "\n\tContent: " ++
    match c.content with
    | some v => v.octets.toHex
    | none => "(detached)"

end ContentInfo

end Pkix
