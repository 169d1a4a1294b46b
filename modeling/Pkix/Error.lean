import Pkix.Oid.Basic

/-!
# Errors

Every failing operation of the library says why. A cause is data; its wording is given once, in
`Error.message`. The eleven kinds of `Error` tell apart what a caller can do about it: mend the
encoding, choose another algorithm, name another attribute, and so on.

A signature that does not match is no error: verification answers `false`.
-/

namespace Pkix

/-- The two ASN.1 time types. -/
inductive TimeKind
  | utc
  | generalized
deriving DecidableEq, Repr

/-- The ASN.1 name of a time type. -/
def TimeKind.name : TimeKind → String
  | .utc => "UTCTime"
  | .generalized => "GeneralizedTime"

/-- The structures whose outermost tag is checked by name. -/
inductive Structure
  | name
  | rdn
  | attributeAssertion
  | algorithmId
  | dsaParameters
  | publicKeyInfo
  | certificateExtension
  | extendedKeyUsage
  | privateKeyUsage
  | attribute
  | signerInfo
  | signedData
  | certificateSequence
deriving DecidableEq, Repr

/-- What is said of a structure that has another outermost tag. -/
def Structure.complaint : Structure → String
  | .name => "X.500 name is not a SEQUENCE"
  | .rdn => "RDN is not a SET"
  | .attributeAssertion => "attribute value assertion is not a SEQUENCE"
  | .algorithmId => "algorithm id is not a SEQUENCE"
  | .dsaParameters => "DSA parameters are not a SEQUENCE"
  | .publicKeyInfo => "subject public key info is not a SEQUENCE"
  | .certificateExtension => "extension is not a SEQUENCE"
  | .extendedKeyUsage => "invalid encoding for ExtendedKeyUsageExtension"
  | .privateKeyUsage => "invalid encoding for PrivateKeyUsageExtension"
  | .attribute => "PKCS9 attribute is not a SEQUENCE"
  | .signerInfo => "SignerInfo is not a SEQUENCE"
  | .signedData => "SignedData is not a SEQUENCE"
  | .certificateSequence => "Netscape certificate sequence is not a SEQUENCE"

/-- Why octets are not an encoding of what was asked for. Tags are given by their octets. -/
inductive Malformed
  | tagMissing
  | tagTruncated
  | tagPadded
  | tagTooLarge
  | tagNotShort
  | lengthMissing
  | lengthIndefinite
  | lengthTruncated
  | lengthPadded
  | lengthTooLong
  | overrun (length available : Nat)
  | inputTooLong (length limit : Nat)
  | tooManyElements (limit : Nat)
  | trailing (count offset : Nat)
  | unexpectedTag (wanted : UInt8) (found : Bytes)
  | unexpectedType (wanted : String) (found : Bytes)
  | notConstructed (found : Bytes)
  | wrongStructure (part : Structure)
  | integerEmpty
  | integerPadded
  | integerRange (n : Int)
  | enumeratedRange (n : Int)
  | booleanContent
  | nullContent
  | bitsUnaligned
  | bitsEmpty
  | bitsUnused (count : UInt8)
  | bitsPadding
  | notString (found : Bytes)
  | stringContent (found : Bytes)
  | oidEmpty
  | oidPadded
  | oidArcTooLarge
  | oidTruncated
  | oidTooShort
  | oidLeading (root child : Nat)
  | timeNotAscii (kind : TimeKind)
  | timeDigits (text : String)
  | timeContent (kind : TimeKind) (text : String)
  | rdnEmpty
  | dsaWithoutParameters
  | curveMissing
  | edwardsKeyLength
  | tbsTruncated
  | validityTruncated
  | keyPeriodField
  | keyPeriodRepeated (bound : String)
  | contentTag (found : UInt8)
  | contentMissing (contentType : Oid)
  | attributeWithoutValues (id : Oid)
  | attributeRepeated (id : Oid)
  | signerInfoTrailing
  | structureRules
  | pemRules
deriving DecidableEq

/-- The wording of a cause. -/
def Malformed.message : Malformed → String
  | .tagMissing => "unexpected end of data reading tag"
  | .tagTruncated => "truncated long-form tag"
  | .tagPadded => "non-minimal long-form tag"
  | .tagTooLarge => "tag number too large"
  | .tagNotShort => "long-form tag used for a low tag number"
  | .lengthMissing => "unexpected end of data reading length"
  | .lengthIndefinite => "indefinite length is not allowed in DER"
  | .lengthTruncated => "truncated length"
  | .lengthPadded => "non-minimal length encoding"
  | .lengthTooLong => "length field too long"
  | .overrun n available => s!"length {n} overruns the {available} available byte(s)"
  | .inputTooLong n limit => s!"input of {n} bytes exceeds the {limit} byte limit"
  | .tooManyElements limit => s!"more than {limit} elements in a constructed value"
  | .trailing n offset => s!"{n} unexpected trailing byte(s) at offset {offset}"
  | .unexpectedTag wanted found =>
    "expected tag 0x" ++ Bytes.toHex [wanted] ++ ", found 0x" ++ found.toHex
  | .unexpectedType wanted found => "expected " ++ wanted ++ ", found tag 0x" ++ found.toHex
  | .notConstructed found => "tag 0x" ++ found.toHex ++ " is not a constructed value"
  | .wrongStructure part => part.complaint
  | .integerEmpty => "empty INTEGER"
  | .integerPadded => "non-minimal INTEGER encoding"
  | .integerRange n => s!"INTEGER {n} out of range"
  | .enumeratedRange n => s!"ENUMERATED {n} out of range"
  | .booleanContent => "invalid BOOLEAN encoding"
  | .nullContent => "NULL with content"
  | .bitsUnaligned => "BIT STRING is not octet aligned"
  | .bitsEmpty => "empty BIT STRING"
  | .bitsUnused n => s!"invalid unused bit count {n}"
  | .bitsPadding => "BIT STRING padding bits are not zero"
  | .notString found => "tag 0x" ++ found.toHex ++ " is not a string type"
  | .stringContent found => "invalid tag 0x" ++ found.toHex ++ " content"
  | .oidEmpty => "empty object identifier"
  | .oidPadded => "non-minimal subidentifier in object identifier"
  | .oidArcTooLarge => "object identifier arc exceeds 64 bits"
  | .oidTruncated => "truncated object identifier"
  | .oidTooShort => "object identifier needs at least two arcs"
  | .oidLeading root child => s!"invalid leading arcs {root}.{child} in object identifier"
  | .timeNotAscii kind => kind.name ++ " is not ASCII"
  | .timeDigits text => "invalid time string " ++ text
  | .timeContent kind text => "invalid " ++ kind.name ++ " " ++ text
  | .rdnEmpty => "empty RDN"
  | .dsaWithoutParameters => "DSA algorithm id without parameters"
  | .curveMissing => "EC key without curve parameters"
  | .edwardsKeyLength => "Ed25519 key is not 32 bytes"
  | .tbsTruncated => "truncated TBSCertificate"
  | .validityTruncated => "truncated Validity"
  | .keyPeriodField => "invalid encoding of PrivateKeyUsageExtension"
  | .keyPeriodRepeated bound => "duplicate " ++ bound ++ " in PrivateKeyUsageExtension"
  | .contentTag found =>
    "ContentInfo content has tag 0x" ++ Bytes.toHex [found] ++ ", expected [0]"
  | .contentMissing t => "content of type " ++ t.text ++ " is missing"
  | .attributeWithoutValues id => "PKCS9 attribute " ++ id.text ++ " has no values"
  | .attributeRepeated id => "duplicate PKCS9 attribute " ++ id.text
  | .signerInfoTrailing => "extra data at the end of SignerInfo"
  | .structureRules => "structure breaks the rules of its type"
  | .pemRules => "text is not PEM"

/-- The types a named extension attribute can ask for. -/
inductive AttributeType
  | boolean
  | bytes
  | integer
  | oids
  | time
deriving DecidableEq, Repr

/-- What a type of attribute is called. -/
def AttributeType.name : AttributeType → String
  | .boolean => "Boolean"
  | .bytes => "byte array"
  | .integer => "Integer"
  | .oids => "Vector"
  | .time => "Date"

/-- What an algorithm was asked to do that it is not supported for; algorithms and curves are
given by name. -/
inductive Unsupported
  | digest (name : String)
  | signature (name : String)
  | dsaIdentifier (name : String)
  | dsaVerification
  | curve (id : Oid)
  | privateKey (name : String)
  | publicKey (name : String)
deriving DecidableEq

/-- The wording of what is not supported. -/
def Unsupported.message : Unsupported → String
  | .digest name => name ++ " digest"
  | .signature name => "signature algorithm " ++ name
  | .dsaIdentifier name => name ++ " is not a DSA algorithm id"
  | .dsaVerification => "DSA signature verification"
  | .curve id => "EC curve " ++ id.text
  | .privateKey name => "private key algorithm " ++ name
  | .publicKey name => "public key algorithm " ++ name

/-- Why a key or a signature cannot be used. -/
inductive SignatureFault
  /-- The curve arithmetic refuses the key, the digest or the nonce. -/
  | unusable
  /-- The octets are no point of the Edwards curve. -/
  | undecodablePoint
  /-- The `key` belongs to the first scheme, the `algorithm` to the second. -/
  | schemeMismatch (key algorithm : String)
  /-- The certificate does not allow its key to sign. -/
  | keyUsage
deriving DecidableEq

/-- The wording of a fault of a key or signature. -/
def SignatureFault.message : SignatureFault → String
  | .unusable => "signature error"
  | .undecodablePoint => "signature error: Cannot decompress Edwards point"
  | .schemeMismatch key algorithm =>
    key ++ " key cannot verify " ++ algorithm ++ " signatures"
  | .keyUsage => "Key usage restricted: cannot be used for digital signatures"

/-- Why an argument is refused. -/
inductive InvalidArgument
  | oidText (text : String)
  | attributeType (wanted : AttributeType)
  | reasonRange (code : Int)
  | attributeRepeated (id : Oid)
  | pemLabel (wanted found : String)
  | nameText
  | keyContainer
deriving DecidableEq

/-- The wording of a refused argument. -/
def InvalidArgument.message : InvalidArgument → String
  | .oidText text => "invalid object identifier: " ++ text
  | .attributeType wanted => "Attribute value should be of type " ++ wanted.name ++ "."
  | .reasonRange code => s!"reason code {code} out of range"
  | .attributeRepeated id => "duplicate PKCS9 attribute " ++ id.text
  | .pemLabel wanted found => "expected PEM label " ++ wanted ++ ", found " ++ found
  | .nameText => "invalid distinguished name"
  | .keyContainer => "invalid key container"

/-- Why a value has no encoding. -/
inductive EncodingFault
  | year (year : Int) (kind : TimeKind)
  | oidTooLarge (id : Oid)
deriving DecidableEq

/-- The wording of a value without encoding. -/
def EncodingFault.message : EncodingFault → String
  | .year y kind => s!"year {y} cannot be encoded as " ++ kind.name
  | .oidTooLarge id => id.text ++ ": object identifier too large"

/-- Why a certificate is refused. -/
inductive CertificateFault
  | serialNotPositive (serial : Int)
  | structureRules
deriving DecidableEq

/-- The wording of a refused certificate. -/
def CertificateFault.message : CertificateFault → String
  | .serialNotPositive n => s!"serial number {n} is not positive"
  | .structureRules => "structure breaks the rules of its type"

/-- Why an operation failed. -/
inductive Error
  | malformed (cause : Malformed)
  | unsupportedContent (contentType : Oid)
  | unknownAttribute (set name : String)
  | noAttributes (set : String)
  | unsupportedAlgorithm (what : Unsupported)
  | signature (fault : SignatureFault)
  | invalidInput (argument : InvalidArgument)
  | encoding (fault : EncodingFault)
  | keyGeneration
  | certificate (fault : CertificateFault)
  | rsa
  /-- A local time is valid but the year of the instant in UTC is outside of the calendar; there is
  no answer. -/
  | beyondCalendar
deriving DecidableEq

namespace Error

/-- The wording of an error, with its kind in front of the `message` of its cause. -/
def message : Error → String
  | .malformed cause => "Malformed encoding: " ++ cause.message
  | .unsupportedContent t =>
    "Unsupported content type: content type " ++ t.text ++ " not supported"
  | .unknownAttribute set name =>
    "Attribute name [" ++ name ++ "] not recognized by CertAttrSet:" ++ set ++ "."
  | .noAttributes set => "No attribute is allowed by CertAttrSet:" ++ set ++ "."
  | .unsupportedAlgorithm what => "Unsupported algorithm: " ++ what.message
  | .signature fault => "Signature error: " ++ fault.message
  | .invalidInput argument => "Invalid input: " ++ argument.message
  | .encoding fault => "Failed to encode data: " ++ fault.message
  | .keyGeneration => "Key generation error"
  | .certificate fault => "Certificate error: " ++ fault.message
  | .rsa => "RSA error"
  | .beyondCalendar => "instant outside of the years of the calendar"

end Error

end Pkix
