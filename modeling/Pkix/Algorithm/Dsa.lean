import Pkix.Algorithm.Basic
import Pkix.Bytes

/-!
# Parameters of DSA keys

The parameters of a DSA algorithm are three INTEGERs. They are read as magnitudes, because some
writers leave out the octet that holds the sign.
-/

namespace Pkix

open Der

/-- The prime modulus `p`, prime divisor `q` and generator `g` of a DSA key. -/
structure DsaParameters where
  p : Int
  q : Int
  g : Int
deriving DecidableEq, Repr

namespace DsaParameters

/-- Reads the parameters from the value `v`. -/
def ofValue (v : Value) : Except Error DsaParameters := do
  if v.is Tag.sequence then
    let (p, c) ← (v.cursor .default).expect Tag.integer
    let (q, c) ← c.expect Tag.integer
    let (g, c) ← c.expect Tag.integer
    c.finish
    return ⟨← p.magnitude, ← q.magnitude, ← g.magnitude⟩
  else .error (.malformed (.wrongStructure .dsaParameters))

/-- The parameters of a DSA algorithm `a`. -/
def ofAlgorithm (a : Algorithm) : Except Error DsaParameters :=
  if a.id ≠ Oid.dsa then .error (.unsupportedAlgorithm (.dsaIdentifier a.name))
  else match a.parameters with
    | none => .error (.malformed .dsaWithoutParameters)
    | some v => ofValue v

/-- The parameters `d` as a value. -/
def value (d : DsaParameters) : Value :=
  Value.ofOctet Tag.sequence (Write.integer d.p ++ Write.integer d.q ++ Write.integer d.g)

/-- The DSA algorithm with the parameters `d`. -/
def algorithm (d : DsaParameters) : Algorithm := ⟨Oid.dsa, some d.value⟩

/-- The parameters `d` line by line. -/
def text (d : DsaParameters) : String :=
  "DSA\n\tp: " ++ Text.hex d.p ++ "\n\tq: " ++ Text.hex d.q ++ "\n\tg: " ++ Text.hex d.g ++ "\n"

end DsaParameters

end Pkix
