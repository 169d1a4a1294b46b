import Pkix.Oid.Basic

/-!
# Well-known object identifiers

The identifiers that the library gives a meaning to, and the short names under which directories
of identifiers list them (`Oid.listedName?`).
-/

namespace Pkix.Oid

/-! ## Content types -/

def data : Oid := ⟨[1, 2, 840, 113549, 1, 7, 1], rfl⟩
def signedData : Oid := ⟨[1, 2, 840, 113549, 1, 7, 2], rfl⟩
def envelopedData : Oid := ⟨[1, 2, 840, 113549, 1, 7, 3], rfl⟩
def digestedData : Oid := ⟨[1, 2, 840, 113549, 1, 7, 5], rfl⟩
def encryptedData : Oid := ⟨[1, 2, 840, 113549, 1, 7, 6], rfl⟩

/-- Signed data as early producers named it, with a wrong fourth arc. -/
def mistypedSignedData : Oid := ⟨[1, 2, 840, 1113549, 1, 7, 2], rfl⟩

/-- A bare sequence of certificates. -/
def certificateSequence : Oid := ⟨[2, 16, 840, 1, 113730, 2, 5], rfl⟩

/-! ## Attributes of signed data -/

def emailAddress : Oid := ⟨[1, 2, 840, 113549, 1, 9, 1], rfl⟩
def contentType : Oid := ⟨[1, 2, 840, 113549, 1, 9, 3], rfl⟩
def messageDigest : Oid := ⟨[1, 2, 840, 113549, 1, 9, 4], rfl⟩
def signingTime : Oid := ⟨[1, 2, 840, 113549, 1, 9, 5], rfl⟩

/-! ## Digests -/

def md2 : Oid := ⟨[1, 2, 840, 113549, 2, 2], rfl⟩
def md5 : Oid := ⟨[1, 2, 840, 113549, 2, 5], rfl⟩
def sha1 : Oid := ⟨[1, 3, 14, 3, 2, 26], rfl⟩
def sha256 : Oid := ⟨[2, 16, 840, 1, 101, 3, 4, 2, 1], rfl⟩
def sha384 : Oid := ⟨[2, 16, 840, 1, 101, 3, 4, 2, 2], rfl⟩
def sha512 : Oid := ⟨[2, 16, 840, 1, 101, 3, 4, 2, 3], rfl⟩
def sha224 : Oid := ⟨[2, 16, 840, 1, 101, 3, 4, 2, 4], rfl⟩

/-! ## Keys -/

def rsaEncryption : Oid := ⟨[1, 2, 840, 113549, 1, 1, 1], rfl⟩
def ecPublicKey : Oid := ⟨[1, 2, 840, 10045, 2, 1], rfl⟩
def dsa : Oid := ⟨[1, 2, 840, 10040, 4, 1], rfl⟩
def ed25519 : Oid := ⟨[1, 3, 101, 112], rfl⟩
def secp256r1 : Oid := ⟨[1, 2, 840, 10045, 3, 1, 7], rfl⟩
def secp384r1 : Oid := ⟨[1, 3, 132, 0, 34], rfl⟩

/-! ## Signatures -/

def md2WithRsa : Oid := ⟨[1, 2, 840, 113549, 1, 1, 2], rfl⟩
def md5WithRsa : Oid := ⟨[1, 2, 840, 113549, 1, 1, 4], rfl⟩
def sha1WithRsa : Oid := ⟨[1, 2, 840, 113549, 1, 1, 5], rfl⟩
def sha256WithRsa : Oid := ⟨[1, 2, 840, 113549, 1, 1, 11], rfl⟩
def sha384WithRsa : Oid := ⟨[1, 2, 840, 113549, 1, 1, 12], rfl⟩
def sha512WithRsa : Oid := ⟨[1, 2, 840, 113549, 1, 1, 13], rfl⟩
def sha224WithRsa : Oid := ⟨[1, 2, 840, 113549, 1, 1, 14], rfl⟩
def ecdsaWithSha1 : Oid := ⟨[1, 2, 840, 10045, 4, 1], rfl⟩
def ecdsaWithSha224 : Oid := ⟨[1, 2, 840, 10045, 4, 3, 1], rfl⟩
def ecdsaWithSha256 : Oid := ⟨[1, 2, 840, 10045, 4, 3, 2], rfl⟩
def ecdsaWithSha384 : Oid := ⟨[1, 2, 840, 10045, 4, 3, 3], rfl⟩
def ecdsaWithSha512 : Oid := ⟨[1, 2, 840, 10045, 4, 3, 4], rfl⟩
def dsaWithSha1 : Oid := ⟨[1, 2, 840, 10040, 4, 3], rfl⟩
def dsaWithSha224 : Oid := ⟨[2, 16, 840, 1, 101, 3, 4, 3, 1], rfl⟩
def dsaWithSha256 : Oid := ⟨[2, 16, 840, 1, 101, 3, 4, 3, 2], rfl⟩

/-! ## Extensions of certificates and revocation lists -/

def subjectKeyIdentifier : Oid := ⟨[2, 5, 29, 14], rfl⟩
def keyUsage : Oid := ⟨[2, 5, 29, 15], rfl⟩
def privateKeyUsagePeriod : Oid := ⟨[2, 5, 29, 16], rfl⟩
def basicConstraints : Oid := ⟨[2, 5, 29, 19], rfl⟩
def reasonCode : Oid := ⟨[2, 5, 29, 21], rfl⟩
def invalidityDate : Oid := ⟨[2, 5, 29, 24], rfl⟩
def deltaCrlIndicator : Oid := ⟨[2, 5, 29, 27], rfl⟩
def extendedKeyUsage : Oid := ⟨[2, 5, 29, 37], rfl⟩
def ocspNoCheck : Oid := ⟨[1, 3, 6, 1, 5, 5, 7, 48, 1, 5], rfl⟩

/-! ## Purposes of keys -/

def anyPurpose : Oid := ⟨[2, 5, 29, 37, 0], rfl⟩
def serverAuth : Oid := ⟨[1, 3, 6, 1, 5, 5, 7, 3, 1], rfl⟩
def clientAuth : Oid := ⟨[1, 3, 6, 1, 5, 5, 7, 3, 2], rfl⟩
def codeSigning : Oid := ⟨[1, 3, 6, 1, 5, 5, 7, 3, 3], rfl⟩
def emailProtection : Oid := ⟨[1, 3, 6, 1, 5, 5, 7, 3, 4], rfl⟩
def ipsecEndSystem : Oid := ⟨[1, 3, 6, 1, 5, 5, 7, 3, 5], rfl⟩
def ipsecTunnel : Oid := ⟨[1, 3, 6, 1, 5, 5, 7, 3, 6], rfl⟩
def ipsecUser : Oid := ⟨[1, 3, 6, 1, 5, 5, 7, 3, 7], rfl⟩
def timeStamping : Oid := ⟨[1, 3, 6, 1, 5, 5, 7, 3, 8], rfl⟩
def ocspSigning : Oid := ⟨[1, 3, 6, 1, 5, 5, 7, 3, 9], rfl⟩

/-! ## Attributes of names -/

def commonName : Oid := ⟨[2, 5, 4, 3], rfl⟩
def surname : Oid := ⟨[2, 5, 4, 4], rfl⟩
def serialNumber : Oid := ⟨[2, 5, 4, 5], rfl⟩
def country : Oid := ⟨[2, 5, 4, 6], rfl⟩
def locality : Oid := ⟨[2, 5, 4, 7], rfl⟩
def state : Oid := ⟨[2, 5, 4, 8], rfl⟩
def street : Oid := ⟨[2, 5, 4, 9], rfl⟩
def organization : Oid := ⟨[2, 5, 4, 10], rfl⟩
def organizationalUnit : Oid := ⟨[2, 5, 4, 11], rfl⟩
def title : Oid := ⟨[2, 5, 4, 12], rfl⟩
def domainComponent : Oid := ⟨[0, 9, 2342, 19200300, 100, 1, 25], rfl⟩
def userId : Oid := ⟨[0, 9, 2342, 19200300, 100, 1, 1], rfl⟩

/-! ## Listed names -/

/-- The identifiers with a listed name. -/
def listed : List (Oid × String) := [
  (userId, "uid"), (domainComponent, "DC"),
  (dsa, "id-dsa"), (dsaWithSha1, "dsa-with-sha1"),
  (ecPublicKey, "id-ecPublicKey"), (secp256r1, "secp256r1"),
  (ecdsaWithSha224, "ecdsa-with-SHA224"), (ecdsaWithSha256, "ecdsa-with-SHA256"),
  (ecdsaWithSha384, "ecdsa-with-SHA384"), (ecdsaWithSha512, "ecdsa-with-SHA512"),
  (rsaEncryption, "rsaEncryption"), (md2WithRsa, "md2WithRSAEncryption"),
  (md5WithRsa, "md5WithRSAEncryption"), (sha1WithRsa, "sha1WithRSAEncryption"),
  (sha256WithRsa, "sha256WithRSAEncryption"), (sha384WithRsa, "sha384WithRSAEncryption"),
  (sha512WithRsa, "sha512WithRSAEncryption"), (sha224WithRsa, "sha224WithRSAEncryption"),
  (data, "id-data"), (signedData, "id-signedData"), (envelopedData, "id-envelopedData"),
  (digestedData, "id-digestedData"), (encryptedData, "id-encryptedData"),
  (emailAddress, "email"), (contentType, "id-contentType"),
  (messageDigest, "id-messageDigest"), (signingTime, "id-signingTime"),
  (md2, "id-md2"), (md5, "id-md5"),
  (serverAuth, "id-kp-serverAuth"), (clientAuth, "id-kp-clientAuth"),
  (codeSigning, "id-kp-codeSigning"), (emailProtection, "id-kp-emailProtection"),
  (timeStamping, "id-kp-timeStamping"), (ocspSigning, "id-kp-OCSPSigning"),
  (ocspNoCheck, "id-pkix-ocsp-nocheck"),
  (sha1, "id-sha1"), (ed25519, "id-Ed25519"), (secp384r1, "secp384r1"),
  (commonName, "cn"), (surname, "sn"), (serialNumber, "serialNumber"), (country, "c"),
  (locality, "L"), (state, "stateOrProvinceName"), (street, "streetAddress"),
  (organization, "o"), (organizationalUnit, "ou"), (title, "title"),
  (subjectKeyIdentifier, "id-ce-subjectKeyIdentifier"), (keyUsage, "id-ce-keyUsage"),
  (privateKeyUsagePeriod, "id-ce-privateKeyUsagePeriod"),
  (basicConstraints, "id-ce-basicConstraints"), (reasonCode, "id-ce-cRLReasons"),
  (invalidityDate, "id-ce-invalidityDate"), (deltaCrlIndicator, "id-ce-deltaCRLIndicator"),
  (extendedKeyUsage, "id-ce-extKeyUsage"), (anyPurpose, "anyExtendedKeyUsage"),
  (sha256, "id-sha256"), (sha384, "id-sha384"), (sha512, "id-sha512"), (sha224, "id-sha224"),
  (dsaWithSha224, "dsa-with-sha224"), (dsaWithSha256, "dsa-with-sha256")]

/-- The name of an identifier `o` that is `listed`. -/
def listedName? (o : Oid) : Option String := listed.lookup o

end Pkix.Oid
