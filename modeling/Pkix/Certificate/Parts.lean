import Pkix.Der.Reader
import Pkix.Extension.Basic
import Pkix.Name.Rfc4514

/-!
# Parts of certificates and revocation lists

Names, times and extensions as they stand in a certificate or a revocation list, where their inner
encoding is kept and only their structure is looked at.

* `EncodedName`, `EncodedTime`, `EncodedExtension`: each with `ofValue?` and `octets`.
* The writer leaves out what is a default and sorts sets; the reader takes some of that either way.
-/

namespace Pkix

open Der

/-- A name as the encodings of its assertions, relative name by relative name (`rdns`). -/
structure EncodedName where
  rdns : List (List Bytes)
deriving DecidableEq

namespace EncodedName

/-- Reads an assertion, which may be about anything. -/
def readAssertion : Value → Option Bytes :=
  Reader.verbatim (Reader.sequence do
    let _ ← Reader.next Reader.oid
    let _ ← Reader.next some)

/-- Sorts the assertions of a relative name; none of the `encodings` may occur twice. -/
def sortAssertions (encodings : List Bytes) : Option (List Bytes) :=
  let sorted := SetOrder.sort encodings
  if (sorted.zip sorted.tail).any fun (a, b) => a == b then none else some sorted

/-- Reads a name. -/
def ofValue? : Value → Option EncodedName := fun v => do
  let rdns ← Reader.listOf (fun rdn => do
    sortAssertions (← Reader.each Tag.set readAssertion rdn)) v
  return ⟨rdns⟩

/-- The encoding of `n`. -/
def octets (n : EncodedName) : Bytes :=
  Write.element Tag.sequence (n.rdns.flatMap fun rdn => Write.element Tag.set rdn.flatten)

/-- The name with the relative names `rdns`. -/
def ofRelativeNames (rdns : List RelativeName) : EncodedName :=
  ⟨rdns.map fun rdn => SetOrder.sort (rdn.assertions.map Assertion.octets)⟩

/-- The name, the assertions of `n` looked into. -/
def name (n : EncodedName) : Except Error Name := Name.ofOctets n.octets

end EncodedName

/-- A whole second since the start of 1970, written as one of the two time types, `kind`. -/
structure EncodedTime where
  kind : TimeKind
  seconds : Int
deriving DecidableEq

namespace EncodedTime

/-- The number of octets of a content that says seconds and has no offset. -/
def contentLength : TimeKind → Nat
  | .utc => 13
  | .generalized => 15

/-- The tag of a time type. -/
def tag : TimeKind → UInt8
  | .utc => Tag.utcTime
  | .generalized => Tag.generalizedTime

/-- The octet `x` begins one of the two time types. -/
def isTag (x : UInt8) : Bool := x == Tag.utcTime || x == Tag.generalizedTime

/-- Reads a `content` of nothing but digits and a closing `Z`, from 1970 on. -/
def ofContent? (kind : TimeKind) (content : Bytes) : Option EncodedTime := do
  if content.length ≠ contentLength kind ∨ content.getLast? ≠ some 0x5A ∨
      !content.dropLast.all Decimal.isDigit then none
  let time ← (Time.ofContent kind content).toOption
  if 0 ≤ time.seconds then some ⟨kind, time.seconds⟩ else none

/-- Reads a time from the value `v`. -/
def ofValue? (v : Value) : Option EncodedTime :=
  if v.is Tag.utcTime then ofContent? .utc v.content
  else if v.is Tag.generalizedTime then ofContent? .generalized v.content
  else none

/-- The digits of a `year` in a time type. -/
def yearOctets (year : Nat) : TimeKind → Bytes
  | .utc => Decimal.octets 2 (year % 100)
  | .generalized => Decimal.octets 4 year

/-- The point in time of `t`. -/
def time (t : EncodedTime) : Time := Time.utc t.seconds

/-- The encoding of `t`. -/
def octets (t : EncodedTime) : Bytes :=
  Write.element (tag t.kind)
    (yearOctets t.time.utcYear.toNat t.kind ++ Time.restContent t.time.utcReading)

/-- The time `t` as a UTCTime, which covers 1970 to 2049; fractions of a second are left out. -/
def ofTime (t : Time) : Except Error EncodedTime :=
  if 0 ≤ t.seconds ∧ t.utcYear < 2050 then .ok ⟨.utc, t.seconds⟩
  else .error (.malformed .structureRules)

end EncodedTime

/-- An extension with the content octets of its identifier, `id`. -/
structure EncodedExtension where
  id : Bytes
  critical : Bool
  value : Bytes
  /-- The content octets `id` stand for an identifier. -/
  valid : (Oid.ofNarrow? id).isSome = true
deriving DecidableEq

namespace EncodedExtension

/-- The extension with the given content octets of its identifier, `id`. -/
def new? (id : Bytes) (critical : Bool) (value : Bytes) : Option EncodedExtension :=
  if h : (Oid.ofNarrow? id).isSome = true then some ⟨id, critical, value, h⟩ else none

/-- Reads an extension from the value `v`. -/
def ofValue? (v : Value) : Option EncodedExtension := do
  let (id, critical, value) ← Reader.sequence (do
    let id ← Reader.next fun v => if v.is Tag.oid then some v.content else none
    let critical ← Reader.optional (· == Tag.boolean) Reader.boolean
    return (id, critical.getD false, ← Reader.next Reader.octetString)) v
  new? id critical value

/-- The encoding of `e`. -/
def octets (e : EncodedExtension) : Bytes :=
  Write.element Tag.sequence
    (Write.element Tag.oid e.id ++ (if e.critical then Write.boolean true else []) ++
      Write.octetString e.value)

/-- The encoding of a list of extensions, `es`. -/
def listOctets (es : List EncodedExtension) : Bytes :=
  Write.element Tag.sequence (es.flatMap octets)

/-- The extension `e` with its identifier. -/
def extension (e : EncodedExtension) : Extension :=
  ⟨(Oid.ofNarrow? e.id).get e.valid, e.critical, e.value⟩

/-- The extension `e` to be put into a structure, which cannot hold every identifier. -/
def ofExtension (e : Extension) : Except Error EncodedExtension :=
  match new? e.id.content e.critical e.value with
  | some encoded => .ok encoded
  | none => .error (.encoding (.oidTooLarge e.id))

end EncodedExtension

/-! ## Single fields -/

namespace Parts

/-- Reads a serial number of at most 21 octets from `v`. -/
def readSerial (v : Value) : Option Int :=
  if v.content.length ≤ 21 then Reader.integer v else none

/-- Reads the version number of a structure from `v`. -/
def readVersion (v : Value) : Option Nat := do
  let n ← Reader.natural v
  if n ≤ 2 then some n else none

/-- Reads a key with its algorithm, without looking into it. -/
def readKey : Value → Option Bytes :=
  Reader.verbatim (Reader.sequence do
    let _ ← Reader.next Reader.algorithm
    let _ ← Reader.next Reader.bitString)

/-- Reads a list of extensions. -/
def readExtensions : Value → Option (List EncodedExtension) :=
  Reader.listOf EncodedExtension.ofValue?

end Parts

end Pkix
