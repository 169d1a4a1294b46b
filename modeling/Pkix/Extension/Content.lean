import Pkix.Extension.Basic
import Pkix.Extension.KeyUsage
import Pkix.Extension.Purpose
import Pkix.Extension.Reason

/-!
# Contents of extensions

Eight kinds of extensions have a typed content; of all others the octets are kept.

* `Content.decode`: the content of an extension of the kind that its identifier names. An empty
  value stands for nothing set.
* `Content.value`: the octets of a content. A content with nothing set has an empty value.
* `TypedExtension`: a content that may be critical; `TypedExtension.ofExtension` and
  `TypedExtension.extension` lead from and to extensions.
* `TypedExtension.text`: the identifier and whether the extension is critical, then the content line
  by line.
-/

namespace Pkix

open Der

/-- What an extension says. -/
inductive Content
  /-- The uses of the key, as `bits`. -/
  | keyUsage (bits : List Bool)
  | subjectKeyIdentifier (keyId : Option Bytes)
  /-- The `purposes` of the key. -/
  | extendedKeyUsage (purposes : Option (List Oid))
  /-- The private key may be used from `notBefore` to `notAfter`. -/
  | privateKeyUsage (notBefore notAfter : Option Time)
  /-- Why a certificate was revoked, as a `code`. -/
  | reasonCode (code : Int64)
  /-- The `date` from which a revoked certificate is known or suspected to be invalid. -/
  | invalidityDate (date : Option Time)
  /-- The number of the revocation list that this one adds to, its `base`. -/
  | deltaCrlIndicator (base : Option Int)
  /-- The status of this certificate need not be asked for. -/
  | ocspNoCheck
  /-- An extension of no known kind, with its `id` and `value`. -/
  | unrecognized (id : Oid) (value : Bytes)
deriving BEq

namespace Content

/-- The identifier of the kind. -/
def oid : Content → Oid
  | keyUsage _ => Oid.keyUsage
  | subjectKeyIdentifier _ => Oid.subjectKeyIdentifier
  | extendedKeyUsage _ => Oid.extendedKeyUsage
  | privateKeyUsage _ _ => Oid.privateKeyUsagePeriod
  | reasonCode _ => Oid.reasonCode
  | invalidityDate _ => Oid.invalidityDate
  | deltaCrlIndicator _ => Oid.deltaCrlIndicator
  | ocspNoCheck => Oid.ocspNoCheck
  | unrecognized id _ => id

/-- Nothing for an empty `value`, else what `read` says of the one element in it. -/
def optionally (value : Bytes) (read : Value → Except Error α) : Except Error (Option α) :=
  if value = [] then .ok none
  else do return some (← read (← Der.decode value))

/-- The bits of a key usage. Some writers put the bit string into an octet string in `value`. -/
def decodeKeyUsage (value : Bytes) : Except Error Content := do
  let v ← Der.decode value
  let v ← if v.is Tag.octetString then Der.decode v.content else pure v
  return keyUsage (← v.bitString).toBools

/-- The purposes in a SEQUENCE `v`. -/
def readPurposes (v : Value) : Except Error (List Oid) := do
  if v.is Tag.sequence then (← v.children .default).mapM Value.oid
  else .error (.malformed (.wrongStructure .extendedKeyUsage))

/-- The tag octet of the first bound of a period. -/
def beforeTag : UInt8 := Tag.contextOctet 0 false

/-- The tag octet of the second bound of a period. -/
def afterTag : UInt8 := Tag.contextOctet 1 false

/-- Adds the bounds among the elements to those already found, `before` and `after`. -/
def readBounds (before after : Option Time) : List Value → Except Error (Option Time × Option Time)
  | [] => .ok (before, after)
  | v :: rest => do
    if v.is beforeTag then
      if before.isSome then .error (.malformed (.keyPeriodRepeated "notBefore"))
      else readBounds (some (← (v.retag Tag.generalizedTime).generalizedTime)) after rest
    else if v.is afterTag then
      if after.isSome then .error (.malformed (.keyPeriodRepeated "notAfter"))
      else readBounds before (some (← (v.retag Tag.generalizedTime).generalizedTime)) rest
    else .error (.malformed .keyPeriodField)

/-- The bounds in a SEQUENCE `v`, in any order. -/
def readPeriod (v : Value) : Except Error (Option Time × Option Time) := do
  if v.is Tag.sequence then readBounds none none (← v.children .default)
  else .error (.malformed (.wrongStructure .privateKeyUsage))

/-- The content of the kind that the identifier `id` names. -/
def decode (id : Oid) (value : Bytes) : Except Error Content :=
  if id = Oid.keyUsage then decodeKeyUsage value
  else if id = Oid.subjectKeyIdentifier then
    return subjectKeyIdentifier (← optionally value Value.octetString)
  else if id = Oid.extendedKeyUsage then
    return extendedKeyUsage (← optionally value readPurposes)
  else if id = Oid.privateKeyUsagePeriod then do
    let (before, after) := (← optionally value readPeriod).getD (none, none)
    return privateKeyUsage before after
  else if id = Oid.reasonCode then
    return reasonCode ((← optionally value Value.enumerated).getD 0)
  else if id = Oid.invalidityDate then
    return invalidityDate (← optionally value Value.generalizedTime)
  else if id = Oid.deltaCrlIndicator then
    return deltaCrlIndicator (← optionally value Value.integer)
  else if id = Oid.ocspNoCheck then .ok ocspNoCheck
  else .ok (unrecognized id value)

/-- A bound `t` of a period under its `tag`, if there is one. -/
def boundOctets (tag : UInt8) : Option Time → Except Error Bytes
  | none => .ok []
  | some t => return Write.implicit tag (← Write.generalizedTime t)

/-- The octets of a content. -/
def value : Content → Except Error Bytes
  | keyUsage bits => .ok (Write.namedBits (BitString.ofBools bits))
  | subjectKeyIdentifier none => .ok []
  | subjectKeyIdentifier (some keyId) => .ok (Write.octetString keyId)
  | extendedKeyUsage none => .ok []
  | extendedKeyUsage (some []) => .ok []
  | extendedKeyUsage (some purposes) =>
    .ok (Write.element Tag.sequence (purposes.flatMap Write.oid))
  | privateKeyUsage none none => .ok []
  | privateKeyUsage before after => do
    let first ← boundOctets beforeTag before
    let second ← boundOctets afterTag after
    return Write.element Tag.sequence (first ++ second)
  | reasonCode code => .ok (if code = 0 then [] else Write.enumerated code)
  | invalidityDate none => .ok []
  | invalidityDate (some date) => Write.generalizedTime date
  | deltaCrlIndicator none => .ok []
  | deltaCrlIndicator (some base) => .ok (Write.integer base)
  | ocspNoCheck => .ok []
  | unrecognized _ value => .ok value

/-- The purposes of an extended key usage `c` allow the given `purpose`, by naming it or any. -/
def permits (c : Content) (purpose : Oid) : Bool :=
  match c with
  | extendedKeyUsage (some purposes) =>
    purposes.any fun p => p == purpose || p == Oid.anyPurpose
  | _ => false

/-- The time `t` lies in the period of a private key; a missing bound is open. -/
def validAt (c : Content) (t : Time) : Bool :=
  match c with
  | privateKeyUsage notBefore notAfter =>
    notBefore.all (fun b => !t.before b) && notAfter.all (fun a => !a.before t)
  | _ => false

end Content

/-- An extension with its `content` read. -/
structure TypedExtension where
  critical : Bool
  content : Content
deriving BEq

namespace TypedExtension

/-- Reads the content of an extension `e`. -/
def ofExtension (e : Extension) : Except Error TypedExtension :=
  return ⟨e.critical, ← Content.decode e.id e.value⟩

/-- The extension with the content of `e`. -/
def extension (e : TypedExtension) : Except Error Extension :=
  return ⟨e.content.oid, e.critical, ← e.content.value⟩

/-- The uses of a key, `bits`, which are critical. -/
def keyUsage (bits : List Bool) : TypedExtension := ⟨true, .keyUsage bits⟩

/-- The identifier of a key, `keyId`. -/
def subjectKeyIdentifier (keyId : Bytes) : TypedExtension :=
  ⟨false, .subjectKeyIdentifier (some keyId)⟩

/-- The `purposes` of a key. -/
def extendedKeyUsage (critical : Bool) (purposes : List Oid) : TypedExtension :=
  ⟨critical, .extendedKeyUsage (some purposes)⟩

/-- The period from `notBefore` to `notAfter` in which a private key may be used. -/
def privateKeyUsage (notBefore notAfter : Option Time) : TypedExtension :=
  ⟨false, .privateKeyUsage notBefore notAfter⟩

/-- The `reason` of a revocation. -/
def reasonCode (reason : Reason) : TypedExtension := ⟨false, .reasonCode reason.code⟩

/-- The invalidity `date` of a revocation. -/
def invalidityDate (date : Time) : TypedExtension := ⟨false, .invalidityDate (some date)⟩

/-- The number `base` of the revocation list that is added to; it is critical. -/
def deltaCrlIndicator (base : Int) : TypedExtension := ⟨true, .deltaCrlIndicator (some base)⟩

/-- The mark of a certificate whose status need not be asked for. -/
def ocspNoCheck : TypedExtension := ⟨false, .ocspNoCheck⟩

end TypedExtension

/-! ## Text -/

/-- The lines of a content. -/
def Content.lines : Content → List String
  | keyUsage bits =>
    "KeyUsage [" :: (KeyUse.all.filter (KeyUse.get bits)).map ("  " ++ ·.text) ++ ["]"]
  | subjectKeyIdentifier keyId =>
    "SubjectKeyIdentifier [" ::
      (keyId.toList.map fun b => "KeyIdentifier [" ++ b.toHex ++ "]") ++ ["]"]
  | extendedKeyUsage purposes =>
    "ExtendedKeyUsages [" :: (purposes.getD []).map ("  " ++ Purpose.nameOf ·) ++ ["]"]
  | privateKeyUsage before after =>
    "PrivateKeyUsage: [" :: before.toList.map ("From: " ++ ·.text) ++
      after.toList.map ("To: " ++ ·.text) ++ ["]"]
  | reasonCode code => ["Reason Code: " ++ (Reason.ofCode code).name]
  | invalidityDate (some date) => ["Invalidity Date: " ++ date.text]
  | invalidityDate none => ["Invalidity Date: Not Set"]
  | deltaCrlIndicator base => "Base CRL Number: [" :: base.toList.map ("  " ++ Text.hex ·) ++ ["]"]
  | ocspNoCheck => ["NoCheck"]
  | unrecognized _ _ => []

/-- The extension `e` as text. -/
def TypedExtension.text (e : TypedExtension) : String :=
  Extension.header e.content.oid e.critical ++ String.join (e.content.lines.map (· ++ "\n"))

end Pkix
