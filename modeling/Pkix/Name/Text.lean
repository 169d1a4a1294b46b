import Pkix.Name.Basic

/-!
# Names as text

A name is shown from the most specific relative name to the most general one, as
`CN=..., O=...`; the assertions of one relative name are joined by ` + `. Attributes without a
keyword are shown as dotted identifiers. A value with a character that separates or delimits is put
between quotes, in which a quote or a backslash follows a backslash; a value that is no text is
shown as `#` and the hexadecimal digits of its encoding.
-/

namespace Pkix

/-- The attributes that are shown by a keyword. -/
def Assertion.keywords : List (Oid × String) := [
  (Oid.commonName, "CN"), (Oid.country, "C"), (Oid.locality, "L"), (Oid.state, "ST"),
  (Oid.organization, "O"), (Oid.organizationalUnit, "OU"), (Oid.street, "STREET")]

/-- The keyword or the identifier of the attribute of `a`. -/
def Assertion.typeText (a : Assertion) : String :=
  match keywords.lookup a.type with
  | some keyword => keyword
  | none => "OID." ++ a.type.text

/-- The character `c` calls for quotes. -/
def Assertion.isDelimiter (c : Char) : Bool :=
  [',', '+', '=', '"', '\n', '<', '>', '#', ';'].contains c

/-- The text `cs` can be mistaken for more or less than one value. -/
def Assertion.needsQuotes (cs : List Char) : Bool :=
  cs.head? == some ' ' || cs.getLast? == some ' ' || cs.any isDelimiter

/-- The text `cs` between quotes. -/
def Assertion.quoted (cs : List Char) : List Char :=
  '"' :: cs.flatMap (fun c => if c == '\\' || c == '"' then ['\\', c] else [c]) ++ ['"']

/-- The value of `a` as it is shown. -/
def Assertion.valueText (a : Assertion) : String :=
  match a.value.text with
  | .ok s => if needsQuotes s.toList then String.ofList (quoted s.toList) else s
  | .error _ => "#" ++ a.value.octets.toHex

/-- An assertion `a` as text. -/
def Assertion.text (a : Assertion) : String := a.typeText ++ "=" ++ a.valueText

/-- A relative name `r` as text. -/
def RelativeName.text (r : RelativeName) : String :=
  " + ".intercalate (r.assertions.map Assertion.text)

/-- A name `n` as text. -/
def Name.text (n : Name) : String := ", ".intercalate (n.rdns.reverse.map RelativeName.text)

end Pkix
