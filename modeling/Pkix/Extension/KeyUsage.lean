/-!
# Uses of a key

The nine named bits that say what a certified key may be used for. A list of bits may be shorter,
then the rest is not set, or longer.

* `KeyUse.get`, `KeyUse.set`: a named bit in a list of bits. Setting a bit leaves the others alone.
-/

namespace Pkix

/-- What a key may be used for. -/
inductive KeyUse
  | digitalSignature
  | nonRepudiation
  | keyEncipherment
  | dataEncipherment
  | keyAgreement
  | keyCertSign
  | crlSign
  | encipherOnly
  | decipherOnly
deriving DecidableEq, Repr

namespace KeyUse

/-- All uses, in the order of their bits. -/
def all : List KeyUse :=
  [digitalSignature, nonRepudiation, keyEncipherment, dataEncipherment, keyAgreement,
    keyCertSign, crlSign, encipherOnly, decipherOnly]

/-- The number of the bit. -/
def index : KeyUse → Nat
  | digitalSignature => 0
  | nonRepudiation => 1
  | keyEncipherment => 2
  | dataEncipherment => 3
  | keyAgreement => 4
  | keyCertSign => 5
  | crlSign => 6
  | encipherOnly => 7
  | decipherOnly => 8

/-- The key of the bit as a named attribute. -/
def key : KeyUse → String
  | digitalSignature => "digital_signature"
  | nonRepudiation => "non_repudiation"
  | keyEncipherment => "key_encipherment"
  | dataEncipherment => "data_encipherment"
  | keyAgreement => "key_agreement"
  | keyCertSign => "key_certsign"
  | crlSign => "crl_sign"
  | encipherOnly => "encipher_only"
  | decipherOnly => "decipher_only"

/-- The use as it is shown. -/
def text : KeyUse → String
  | digitalSignature => "DigitalSignature"
  | nonRepudiation => "Non_repudiation"
  | keyEncipherment => "Key_Encipherment"
  | dataEncipherment => "Data_Encipherment"
  | keyAgreement => "Key_Agreement"
  | keyCertSign => "Key_CertSign"
  | crlSign => "Crl_Sign"
  | encipherOnly => "Encipher_Only"
  | decipherOnly => "Decipher_Only"

/-- The bit of a `use` among `bits`. -/
def get (bits : List Bool) (use : KeyUse) : Bool := bits.getD use.index false

/-- The `bits` with that of a `use` changed to `value`. The list grows where it is too short. -/
def set (bits : List Bool) (use : KeyUse) (value : Bool) : List Bool :=
  (bits ++ List.replicate (use.index + 1 - bits.length) false).set use.index value

/-- The bits of the given `uses`. -/
def bits (uses : List KeyUse) : List Bool := uses.foldl (set · · true) []

end KeyUse

end Pkix
