import Pkix.Der.Primitive
import Pkix.Der.Write
import Pkix.Oid.Known

/-!
# Algorithm identifiers

An algorithm is named by an object identifier and may have parameters, which are any value. Absent
parameters and a NULL are different.

* `Algorithm.ofValue`, `Algorithm.read`, `Algorithm.octets`: reading and writing.
* `Algorithm.name`: the standard name, or the identifier where there is none.
-/

namespace Pkix

open Der

/-- An algorithm `id` with its `parameters`. -/
structure Algorithm where
  id : Oid
  parameters : Option Value
deriving DecidableEq

namespace Algorithm

/-- The algorithm `id` without parameters. -/
def plain (id : Oid) : Algorithm := ⟨id, none⟩

/-- The algorithm `id` with NULL parameters. -/
def withNull (id : Oid) : Algorithm := ⟨id, some (Value.ofOctet Tag.null [])⟩

/-- The parameters after `c`, which may be left out; a NULL has no content. -/
def readParameters (c : Cursor) : Except Error (Option Value × Cursor) := do
  if c.isEmpty then return (none, c)
  else
    let (v, c) ← c.value
    if v.is Tag.null then v.null
    return (some v, c)

/-- Reads an algorithm from the value `v`. -/
def ofValue (limits : Limits) (v : Value) : Except Error Algorithm := do
  if v.is Tag.sequence then
    let (id, c) ← (v.cursor limits).oid
    let (parameters, c) ← readParameters c
    c.finish
    return ⟨id, parameters⟩
  else .error (.malformed (.wrongStructure .algorithmId))

/-- The next element after `c`, an algorithm. -/
def read (c : Cursor) : Except Error (Algorithm × Cursor) := do
  let (v, c) ← c.expect Tag.sequence
  return (← ofValue c.limits v, c)

/-- The encoding of `a`. -/
def octets (a : Algorithm) : Bytes :=
  Write.element Tag.sequence
    (Write.oid a.id ++ match a.parameters with
      | some v => v.octets
      | none => [])

/-- The algorithms with a standard name. -/
def standardNames : List (Oid × String) := [
  (Oid.md2, "MD2"), (Oid.md5, "MD5"), (Oid.sha1, "SHA-1"), (Oid.sha224, "SHA-224"),
  (Oid.sha256, "SHA-256"), (Oid.sha384, "SHA-384"), (Oid.sha512, "SHA-512"),
  (Oid.rsaEncryption, "RSA"), (Oid.ecPublicKey, "EC"), (Oid.dsa, "DSA"),
  (Oid.ed25519, "Ed25519"), (Oid.md2WithRsa, "MD2withRSA"), (Oid.md5WithRsa, "MD5withRSA"),
  (Oid.sha1WithRsa, "SHA1withRSA"), (Oid.sha224WithRsa, "SHA224withRSA"),
  (Oid.sha256WithRsa, "SHA256withRSA"), (Oid.sha384WithRsa, "SHA384withRSA"),
  (Oid.sha512WithRsa, "SHA512withRSA"), (Oid.ecdsaWithSha1, "SHA1withECDSA"),
  (Oid.ecdsaWithSha224, "SHA224withECDSA"), (Oid.ecdsaWithSha256, "SHA256withECDSA"),
  (Oid.ecdsaWithSha384, "SHA384withECDSA"), (Oid.ecdsaWithSha512, "SHA512withECDSA"),
  (Oid.dsaWithSha1, "SHA1withDSA"), (Oid.dsaWithSha224, "SHA224withDSA"),
  (Oid.dsaWithSha256, "SHA256withDSA")]

/-- The standard name of an identifier `id`, or its dotted text. -/
def nameOf (id : Oid) : String := (standardNames.lookup id).getD id.text

/-- The standard name of `a`, or the identifier `a.id` where there is none. -/
def name (a : Algorithm) : String := nameOf a.id

end Algorithm

end Pkix
