import Pkix.Oid.Known

/-!
# Purposes of keys

The purposes that a request for a certificate can list, and the names under which purposes are
shown.
-/

namespace Pkix

/-- A purpose that a certificate can be asked for. -/
inductive Purpose
  | serverAuth
  | clientAuth
  | codeSigning
  | emailProtection
  | timeStamping
  | ocspSigning
deriving DecidableEq, Repr

namespace Purpose

/-- All purposes that can be asked for. -/
def all : List Purpose :=
  [serverAuth, clientAuth, codeSigning, emailProtection, timeStamping, ocspSigning]

/-- The identifier of a purpose. -/
def oid : Purpose → Oid
  | serverAuth => Oid.serverAuth
  | clientAuth => Oid.clientAuth
  | codeSigning => Oid.codeSigning
  | emailProtection => Oid.emailProtection
  | timeStamping => Oid.timeStamping
  | ocspSigning => Oid.ocspSigning

/-- The purpose with an identifier `o`. -/
def ofOid? (o : Oid) : Option Purpose := all.find? (·.oid == o)

/-- The purposes that are shown by name. -/
def names : List (Oid × String) := [
  (Oid.serverAuth, "serverAuth"), (Oid.clientAuth, "clientAuth"),
  (Oid.codeSigning, "codeSigning"), (Oid.emailProtection, "emailProtection"),
  (Oid.ipsecEndSystem, "ipsecEndSystem"), (Oid.ipsecTunnel, "ipsecTunnel"),
  (Oid.ipsecUser, "ipsecUser"), (Oid.timeStamping, "timeStamping"),
  (Oid.ocspSigning, "OCSPSigning"), (Oid.anyPurpose, "anyExtendedKeyUsage")]

/-- The name of the identifier `o` of a purpose, or its dotted text. -/
def nameOf (o : Oid) : String := (names.lookup o).getD o.text

/-- The name of a purpose `p`. -/
def name (p : Purpose) : String := nameOf p.oid

end Purpose

end Pkix
