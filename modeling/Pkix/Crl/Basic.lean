import Pkix.Certificate.Basic
import Pkix.Crl.Body

/-!
# Certificate revocation lists

A revocation list keeps the octets it was read from, like a certificate.

* `Crl.ofOctets`: reading.
* `Crl.revoked`: serial numbers and reasons of the revoked certificates.
* `Crl.verify`: checks the signature with the key of the issuer.
-/

namespace Pkix

open Der

/-- A revocation list: its `octets`, and what they say. -/
structure Crl where
  /-- The encoding. -/
  octets : Bytes
  layout : Crl.Layout
  /-- The encoding has this structure, `layout`. -/
  layout_eq : Crl.Layout.ofOctets? octets = some layout

namespace Crl

theorem ext_octets {a b : Crl} (h : a.octets = b.octets) : a = b := by
  obtain ⟨bytes, l, hl⟩ := a
  obtain ⟨bytes', l', hl'⟩ := b
  cases h
  cases hl.symm.trans hl'
  rfl

/-- Two revocation lists `a` and `b` are the same if their octets are. -/
instance : DecidableEq Crl := fun a b =>
  decidable_of_iff (a.octets = b.octets) ⟨ext_octets, fun h => h ▸ rfl⟩

/-- Reads a revocation list from the octets `b`. -/
def ofOctets (b : Bytes) : Except Error Crl :=
  match h : Layout.ofOctets? b with
  | some layout => .ok ⟨b, layout, h⟩
  | none => .error (.certificate .structureRules)

/-- Body, algorithm and signature of `c`. -/
def signed (c : Crl) : Except Error Signed := Signed.ofOctets c.octets

/-- The cursor after `c` and a version, which may be left out. -/
def skipVersion (c : Cursor) : Except Error Cursor :=
  if c.peek = some Tag.integer then return (← c.value).2 else .ok c

/-- The name of the issuer of `c`. -/
def issuer (c : Crl) : Except Error Name := do
  let s ← c.signed
  let (fields, _) ← (Cursor.ofBuffer s.body .default).enter Tag.sequence
  let fields ← skipVersion fields
  let (_, fields) ← Algorithm.read fields
  let (issuer, _) ← fields.expect Tag.sequence
  Name.ofValue .default issuer

/-- The entries of `c`. -/
def entries (c : Crl) : List Entry := c.layout.body.revoked.getD []

/-- The number of revoked certificates in `c`. -/
def count (c : Crl) : Nat := c.entries.length

/-- The reason in a content of that kind, by its `code`. -/
def reasonOf : Content → Option Reason
  | .reasonCode code => some (Reason.ofCode code)
  | _ => none

/-- The reason in the first extension of `e` of that kind. -/
def Entry.reason? (e : Entry) : Except Error (Option Reason) :=
  let extensions := (e.extensions.getD []).map EncodedExtension.extension
  match extensions.find? (·.id == Oid.reasonCode) with
  | none => .ok none
  | some x => return reasonOf (← TypedExtension.ofExtension x).content

/-- The serial numbers of the certificates that `c` revokes, with the reasons that are given. -/
def revoked (c : Crl) : Except Error (List (Int × Option Reason)) :=
  c.entries.mapM fun e => return (e.serial, ← e.reason?)

/-- The signature was made with the private key that belongs to `key`. -/
def verify (c : Crl) (key : PublicKey) : Except Error Bool := do (← c.signed).verify key

/-- Issuer and number of revoked certificates of `c`. -/
def text (c : Crl) : String :=
  "X.509 CRL v2\nIssuer: " ++ Name.textOrError c.issuer ++
    s!"\nRevoked Certificates: {c.count}"

end Crl

end Pkix
