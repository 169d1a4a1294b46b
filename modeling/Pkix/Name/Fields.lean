import Pkix.Name.Rfc4514

/-!
# Names from a few fields

`NameFields` are the attributes that most names consist of. A name is made from them by way of the
string form of RFC 4514 (`NameFields.text`), and they are picked out of any name again.
-/

namespace Pkix

/-- The usual attributes of a name; only those that are set appear in it. -/
structure NameFields where
  commonName : String
  country : Option String
  state : Option String
  locality : Option String
  organization : Option String
  organizationalUnit : Option String
deriving DecidableEq, Repr

namespace NameFields

/-- The character `c` follows a backslash wherever it stands. -/
def special (c : Char) : Bool := [',', '+', '"', '\\', '<', '>', ';', '='].contains c

/-- The text of a value `s` with backslashes before the characters that need them. A number sign or
a space needs one at the start. -/
def escape (s : String) : String :=
  let cs := s.toList
  let first := match cs with
    | '#' :: _ | ' ' :: _ => ['\\']
    | _ => []
  String.ofList (first ++ cs.flatMap fun c => if special c then ['\\', c] else [c])

/-- The string form of `f`, from the most specific field to the most general one. -/
def text (f : NameFields) : String :=
  let fields : List (String × Option String) := [
    ("CN", some f.commonName), ("OU", f.organizationalUnit), ("O", f.organization),
    ("L", f.locality), ("ST", f.state), ("C", f.country)]
  ",".intercalate (fields.filterMap fun (key, value) => value.map (key ++ "=" ++ escape ·))

/-- The name with the fields `f`. -/
def name (f : NameFields) : Except Error Name := do
  Name.ofRelativeNames (← Rfc4514.parse f.text)

/-- The fields of a name `n`; a missing common name is empty. -/
def ofName (n : Name) : NameFields where
  commonName := n.commonName?.getD ""
  country := n.attribute? Oid.country
  state := n.attribute? Oid.state
  locality := n.attribute? Oid.locality
  organization := n.attribute? Oid.organization
  organizationalUnit := n.attribute? Oid.organizationalUnit

end NameFields

end Pkix
