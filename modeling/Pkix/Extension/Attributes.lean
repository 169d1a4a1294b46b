import Pkix.Extension.Content

/-!
# Extensions as named attributes

Tools read and change an extension by the names of its attributes. A content of a known kind has a
fixed list of attributes; names are compared without regard to ASCII case.

* `TypedExtension.get`, `TypedExtension.set`, `TypedExtension.delete`: an unknown name is refused
  before a value of the wrong type is; a refused change changes nothing.
-/

namespace Pkix

/-- The value of a named attribute. -/
inductive AttributeValue
  | boolean (b : Bool)
  | bytes (b : Bytes)
  | integer (n : Int)
  | oids (os : List Oid)
  | time (t : Time)
  | absent
deriving BEq

namespace AttributeValue

/-- The complaint about a value of another type than the one `wanted`. -/
def typeError (wanted : AttributeType) : Except Error α :=
  .error (.invalidInput (.attributeType wanted))

/-- A value that is `absent` where there is none. -/
def ofOption (f : α → AttributeValue) : Option α → AttributeValue
  | some x => f x
  | none => absent

/-- A truth value. -/
def asBoolean : AttributeValue → Except Error Bool
  | boolean b => .ok b
  | _ => typeError .boolean

/-- Octets. -/
def asBytes : AttributeValue → Except Error Bytes
  | bytes b => .ok b
  | _ => typeError .bytes

/-- An integer. -/
def asInteger : AttributeValue → Except Error Int
  | integer n => .ok n
  | _ => typeError .integer

/-- A list of identifiers. -/
def asOids : AttributeValue → Except Error (List Oid)
  | oids os => .ok os
  | _ => typeError .oids

/-- A point in time. -/
def asTime : AttributeValue → Except Error Time
  | time t => .ok t
  | _ => typeError .time

end AttributeValue

/-- The attributes that contents have. -/
inductive AttributeKey
  | use (u : KeyUse)
  | keyId
  | purposes
  | notBefore
  | notAfter
  | reason
  | date
  | number
deriving DecidableEq, Repr

/-- The name of an attribute, by which `key` finds it. -/
def AttributeKey.name : AttributeKey → String
  | use u => u.key
  | keyId => "key_id"
  | purposes => "usages"
  | notBefore => "not_before"
  | notAfter => "not_after"
  | reason => "reason"
  | date => "date"
  | number => "value"

namespace Content

/-- What the attributes of a kind together are called; none for an unknown kind. -/
def setName? : Content → Option String
  | keyUsage _ => some "KeyUsage"
  | subjectKeyIdentifier _ => some "SubjectKeyIdentifier"
  | extendedKeyUsage _ => some "ExtendedKeyUsage"
  | privateKeyUsage _ _ => some "PrivateKeyUsage"
  | reasonCode _ => some "CRLReasonCode"
  | invalidityDate _ => some "InvalidityDate"
  | deltaCrlIndicator _ => some "DeltaCRLIndicator"
  | ocspNoCheck => some "OCSPNoCheck"
  | unrecognized _ _ => none

/-- The attributes of a kind. -/
def keys : Content → List AttributeKey
  | keyUsage _ => KeyUse.all.map .use
  | subjectKeyIdentifier _ => [.keyId]
  | extendedKeyUsage _ => [.purposes]
  | privateKeyUsage _ _ => [.notBefore, .notAfter]
  | reasonCode _ => [.reason]
  | invalidityDate _ => [.date]
  | deltaCrlIndicator _ => [.number]
  | ocspNoCheck => []
  | unrecognized _ _ => []

/-- The texts `a` and `b` are equal up to ASCII case. -/
def sameName (a b : String) : Bool := a.toList.map Char.toLower == b.toList.map Char.toLower

/-- The attribute of `c` with a `name`. -/
def key (c : Content) (name : String) : Except Error AttributeKey :=
  let set := c.setName?.getD ""
  if c.keys.isEmpty then .error (.noAttributes set)
  else match c.keys.find? (sameName ·.name name) with
    | some k => .ok k
    | none => .error (.unknownAttribute set name)

/-- The value of an attribute `k`; `absent` for one that the kind of `c` does not have. -/
def lookup (c : Content) (k : AttributeKey) : AttributeValue :=
  match c, k with
  | keyUsage bits, .use u => .boolean (KeyUse.get bits u)
  | subjectKeyIdentifier keyId, .keyId => .ofOption .bytes keyId
  | extendedKeyUsage purposes, .purposes => .ofOption .oids purposes
  | privateKeyUsage before _, .notBefore => .ofOption .time before
  | privateKeyUsage _ after, .notAfter => .ofOption .time after
  | reasonCode code, .reason => .integer code.toInt
  | invalidityDate date, .date => .ofOption .time date
  | deltaCrlIndicator base, .number => .ofOption .integer base
  | _, _ => .absent

/-- The 64-bit code that is meant by an integer `n`. -/
def codeOf (n : Int) : Except Error Int64 :=
  if Int64.minValue.toInt ≤ n ∧ n ≤ Int64.maxValue.toInt then .ok (Int64.ofInt n)
  else .error (.invalidInput (.reasonRange n))

/-- The content `c` with another value `v` of an attribute `k`; the same content for an attribute
that the kind does not have. -/
def store (c : Content) (k : AttributeKey) (v : AttributeValue) : Except Error Content :=
  match c, k with
  | keyUsage bits, .use u => return keyUsage (KeyUse.set bits u (← v.asBoolean))
  | subjectKeyIdentifier _, .keyId => return subjectKeyIdentifier (some (← v.asBytes))
  | extendedKeyUsage _, .purposes => return extendedKeyUsage (some (← v.asOids))
  | privateKeyUsage _ after, .notBefore => return privateKeyUsage (some (← v.asTime)) after
  | privateKeyUsage before _, .notAfter => return privateKeyUsage before (some (← v.asTime))
  | reasonCode _, .reason => do return reasonCode (← codeOf (← v.asInteger))
  | invalidityDate _, .date => return invalidityDate (some (← v.asTime))
  | deltaCrlIndicator _, .number => return deltaCrlIndicator (some (← v.asInteger))
  | c, _ => .ok c

/-- The content `c` with an attribute `k` emptied. -/
def clear (c : Content) (k : AttributeKey) : Content :=
  match c, k with
  | keyUsage bits, .use u => keyUsage (KeyUse.set bits u false)
  | subjectKeyIdentifier _, .keyId => subjectKeyIdentifier none
  | extendedKeyUsage _, .purposes => extendedKeyUsage none
  | privateKeyUsage _ after, .notBefore => privateKeyUsage none after
  | privateKeyUsage before _, .notAfter => privateKeyUsage before none
  | reasonCode _, .reason => reasonCode 0
  | invalidityDate _, .date => invalidityDate none
  | deltaCrlIndicator _, .number => deltaCrlIndicator none
  | c, _ => c

end Content

namespace TypedExtension

/-- The value of the attribute of `e` called `name`. -/
def get (e : TypedExtension) (name : String) : Except Error AttributeValue :=
  return e.content.lookup (← e.content.key name)

/-- The extension `e` with another value `v` of the attribute called `name`. -/
def set (e : TypedExtension) (name : String) (v : AttributeValue) : Except Error TypedExtension :=
  return { e with content := ← e.content.store (← e.content.key name) v }

/-- The extension `e` with the attribute called `name` emptied. -/
def delete (e : TypedExtension) (name : String) : Except Error TypedExtension :=
  return { e with content := e.content.clear (← e.content.key name) }

end TypedExtension

end Pkix
