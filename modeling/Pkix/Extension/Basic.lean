import Pkix.Der.Primitive
import Pkix.Der.Write
import Pkix.Oid.Narrow

/-!
# Extensions

An extension of a certificate or a revocation list has an identifier, may be critical, and holds
octets that only its kind gives a meaning to.

* `Extension.ofValue`, `Extension.octets`: reading and writing. An extension that is not critical
  may say so when it is read; it is written without.
-/

namespace Pkix

open Der

/-- An extension `id` with its content as octets, `value`. -/
structure Extension where
  id : Oid
  critical : Bool
  value : Bytes
deriving DecidableEq

namespace Extension

/-- Whether an extension is critical, which may be left out after `c`. -/
def readCritical (c : Cursor) : Except Error (Bool × Cursor) := do
  match ← c.optional Tag.boolean with
  | (some v, c) => return (← v.boolean, c)
  | (none, c) => return (false, c)

/-- Reads an extension from the value `v`. -/
def ofValue (v : Value) : Except Error Extension := do
  if v.is Tag.sequence then
    let (id, c) ← (v.cursor .default).oid
    let (critical, c) ← readCritical c
    let (value, c) ← c.octetString
    c.finish
    return ⟨id, critical, value⟩
  else .error (.malformed (.wrongStructure .certificateExtension))

/-- The encoding of `e`. -/
def octets (e : Extension) : Bytes :=
  Write.element Tag.sequence
    (Write.oid e.id ++ (if e.critical then Write.boolean true else []) ++
      Write.octetString e.value)

/-- The extension `e` as a certificate structure gives it back. -/
def narrow? (e : Extension) : Except Error Extension :=
  return { e with id := ← e.id.narrow? }

/-- The identifier `id` and whether the extension is `critical`. -/
def header (id : Oid) (critical : Bool) : String :=
  "ObjectId: " ++ id.text ++ " Criticality=" ++ (if critical then "true" else "false") ++ "\n"

/-- The extension `e` as text. -/
def text (e : Extension) : String := header e.id e.critical

end Extension

end Pkix
