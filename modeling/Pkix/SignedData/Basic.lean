import Pkix.Crl.Basic
import Pkix.SignedData.Signer

/-!
# Signed data

Signed data in the sense of PKCS #7 is a content with the signatures of any number of signers, and
the certificates and revocation lists that help to check them.

* `SignedData.ofOctets`, `SignedData.ofPem`: reading. The current grammar is tried first, then the
  legacy one, whose complaint counts where neither fits. A bare sequence of certificates is read as
  signed data without signers.
* `SignedData.octets`, `SignedData.pem`: writing, always in the current grammar and with all sets
  in canonical order.
* `SignedData.text`: the content, then the version and the lists of algorithms, certificates,
  revocation lists and signers, each under a heading. Headings of certificates and revocation lists
  are left out where there are none.
-/

namespace Pkix

open Der

/-- A `content` with signatures. -/
structure SignedData where
  /-- The version, which a bare sequence of certificates does not have. -/
  version : Option UInt32
  digestAlgorithms : List Algorithm
  content : ContentInfo
  certificates : List Certificate
  crls : List Crl
  signers : List Signer
  /-- The `grammar` that it was read in. -/
  grammar : Grammar

namespace SignedData

/-- The tag octet of the certificates. -/
def certificatesTag : UInt8 := Tag.contextOctet 0 true

/-- The tag octet of the revocation lists. -/
def crlsTag : UInt8 := Tag.contextOctet 1 true

/-- The label of signed data in PEM text. -/
def label : String := "PKCS7"

/-- Signed data of version 1. -/
def new (digestAlgorithms : List Algorithm) (content : ContentInfo)
    (certificates : List Certificate) (crls : List Crl) (signers : List Signer) : SignedData where
  version := some 1
  digestAlgorithms := digestAlgorithms
  content := content
  certificates := certificates
  crls := crls
  signers := signers
  grammar := .current

/-! ## Reading -/

/-- Reads the elements of a set under a `tag`, which may be left out after `c`. -/
def readOptionalSet (c : Cursor) (tag : UInt8) : Except Error (List Value × Cursor) :=
  if c.peek = some tag then c.elements tag else .ok ([], c)

/-- Reads certificates and revocation lists after `c`. The legacy grammar has two plain sets, of
which the second one is not looked into. -/
def readAids (c : Cursor) : Grammar → Except Error (List Value × List Value × Cursor)
  | .current => do
    let (certificates, c) ← readOptionalSet c certificatesTag
    let (crls, c) ← readOptionalSet c crlsTag
    return (certificates, crls, c)
  | .legacy => do
    let (certificates, c) ← c.setOf
    let (_, c) ← c.setOf
    return (certificates, [], c)

/-- Reads signed data proper from the value `v` in a grammar `g`. -/
def ofValue (limits : Limits) (g : Grammar) (v : Value) : Except Error SignedData := do
  if v.is Tag.sequence then
    let c ← Cursor.start v.content limits
    let (version, c) ← c.word
    let (digests, c) ← c.setOf
    let digestAlgorithms ← digests.mapM (Algorithm.ofValue .default)
    let (content, c) ← ContentInfo.read c g
    let (certificates, crls, c) ← readAids c g
    let (signers, c) ← c.setOf
    c.finish
    return {
      version := some version
      digestAlgorithms
      content
      certificates := ← certificates.mapM fun v => Certificate.ofOctets v.octets
      crls := ← crls.mapM fun v => Crl.ofOctets v.octets
      signers := ← signers.mapM (Signer.ofValue limits g)
      grammar := g }
  else .error (.malformed (.wrongStructure .signedData))

/-- Reads a bare sequence of certificates from the value `v`, which is the content of nothing
else. -/
def ofCertificates (limits : Limits) (g : Grammar) (info : ContentInfo) (v : Value) :
    Except Error SignedData := do
  if v.is Tag.sequence then
    let c ← Cursor.start v.content limits
    let certificates ← (← c.all).mapM fun v => Certificate.ofOctets v.octets
    return { new [] info certificates [] [] with version := none, grammar := g }
  else .error (.malformed (.wrongStructure .certificateSequence))

/-- Reads a content that is signed data, `info`. One early identifier goes with the `legacy`
grammar, whatever the grammar `g` around it. -/
def ofInfo (limits : Limits) (g : Grammar) (info : ContentInfo) : Except Error SignedData :=
  match info.content with
  | none => .error (.malformed (.contentMissing info.type))
  | some v =>
    if info.type = Oid.signedData then ofValue limits g v
    else if info.type = Oid.mistypedSignedData then ofValue limits .legacy v
    else if info.type = Oid.certificateSequence then ofCertificates limits g info v
    else .error (.unsupportedContent info.type)

/-- Reads signed data after `c` in a grammar `g`. -/
def read (c : Cursor) (g : Grammar) : Except Error SignedData := do
  let (info, after) ← ContentInfo.read c g
  after.finish
  ofInfo c.limits g info

/-- Reads signed data from the octets `b` in whichever grammar fits. -/
def ofOctets (b : Bytes) (limits : Limits) : Except Error SignedData := do
  let c ← Cursor.start b limits
  match read c .current with
  | .ok d => return d
  | .error _ => read c .legacy

/-- Reads signed data from the PEM block of a `text` with the right `label`. -/
def ofPem (text : String) : Except Error SignedData := do
  ofOctets (← (← Pem.decode text).require label) .default

/-! ## Writing -/

/-- A set in canonical order under a `tag`, nothing for no elements. -/
def optionalSet (tag : UInt8) (encodings : List Bytes) : Bytes :=
  if encodings.isEmpty then [] else Write.setOf tag encodings

/-- The encoding of `d`. A version is written even where none was read. -/
def octets (d : SignedData) : Except Error Bytes := do
  let signers ← d.signers.mapM Signer.octets
  let body := Write.word (d.version.getD 1) ++
    Write.setOf Tag.set (d.digestAlgorithms.map Algorithm.octets) ++ d.content.octets ++
    optionalSet certificatesTag (d.certificates.map Certificate.octets) ++
    optionalSet crlsTag (d.crls.map Crl.octets) ++ Write.setOf Tag.set signers
  return ContentInfo.octets ⟨Oid.signedData, some (Value.ofOctet Tag.sequence body)⟩

/-- The encoding of `d` as PEM text. -/
def pem (d : SignedData) : Except Error String := return Pem.encode ⟨label, ← d.octets⟩

/-! ## Text -/

/-- The `texts` with their numbers, each after a tab, a number and a `separator`. -/
def numbered (separator : String) (texts : List String) : String :=
  String.join (texts.zipIdx.map fun (t, i) => "\t" ++ i.repr ++ separator ++ t ++ "\n")

/-- Numbered `texts` under a `heading`, nothing for no texts. -/
def listing (heading : String) (texts : List String) : String :=
  if texts.isEmpty then "" else heading ++ "\n" ++ numbered ".   " texts

/-- Signed data `d` as text. -/
def text (d : SignedData) : Except Error String := do
  let signers ← d.signers.mapM Signer.text
  return d.content.text ++ "\n" ++
    (match d.version with
      | some v => "PKCS7 :: version: " ++ Text.hex v.toNat ++ "\n"
      | none => "") ++
    "PKCS7 :: digest AlgorithmIds: \n" ++
    String.join (d.digestAlgorithms.map fun a => "\t" ++ a.name ++ "\n") ++
    listing "PKCS7 :: certificates: " (d.certificates.map Certificate.text) ++
    listing "PKCS7 :: crls: " (d.crls.map Crl.text) ++
    "PKCS7 :: signer infos: \n" ++ numbered ".  " signers

end SignedData

end Pkix
