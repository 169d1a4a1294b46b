/-!
# Reasons of a revocation

Why a certificate was revoked, with the code that a revocation list gives. A code without a reason
counts as unspecified.
-/

namespace Pkix

/-- Why a certificate was revoked. -/
inductive Reason
  | unspecified
  | keyCompromise
  | caCompromise
  | affiliationChanged
  | superseded
  | cessationOfOperation
  | certificateHold
  | unused
  | removeFromCrl
  | privilegeWithdrawn
  | aaCompromise
deriving DecidableEq, Repr

namespace Reason

/-- All reasons, in the order of their codes. -/
def all : List Reason :=
  [unspecified, keyCompromise, caCompromise, affiliationChanged, superseded,
    cessationOfOperation, certificateHold, unused, removeFromCrl, privilegeWithdrawn,
    aaCompromise]

/-- The code of a reason. -/
def code : Reason → Int64
  | unspecified => 0
  | keyCompromise => 1
  | caCompromise => 2
  | affiliationChanged => 3
  | superseded => 4
  | cessationOfOperation => 5
  | certificateHold => 6
  | unused => 7
  | removeFromCrl => 8
  | privilegeWithdrawn => 9
  | aaCompromise => 10

/-- The reason with a `code`, `unspecified` if there is none. -/
def ofCode (code : Int64) : Reason := (all.find? (·.code == code)).getD unspecified

/-- The name of a reason. -/
def name : Reason → String
  | unspecified => "Unspecified"
  | keyCompromise => "KeyCompromise"
  | caCompromise => "CaCompromise"
  | affiliationChanged => "AffiliationChanged"
  | superseded => "Superseded"
  | cessationOfOperation => "CessationOfOperation"
  | certificateHold => "CertificateHold"
  | unused => "Unused"
  | removeFromCrl => "RemoveFromCrl"
  | privilegeWithdrawn => "PrivilegeWithdrawn"
  | aaCompromise => "AaCompromise"

end Reason

end Pkix
