import Pkix.Digest.Sha
import Pkix.Oid.Known

/-!
# Message digests

The digests that a signature can be made over, their names, identifiers and values.

* `Digest.hash`: the digest of a message.
* `Digest.hmac`: the keyed digest of RFC 2104, where a key no longer than a block of the hash is
  mixed into the message twice.
-/

namespace Pkix

/-- A message digest. -/
inductive Digest
  | sha1
  | sha224
  | sha256
  | sha384
  | sha512
deriving DecidableEq, Repr

namespace Digest

/-- All digests. -/
def all : List Digest := [sha1, sha224, sha256, sha384, sha512]

/-- The name of a digest. -/
def name : Digest → String
  | sha1 => "SHA-1"
  | sha224 => "SHA-224"
  | sha256 => "SHA-256"
  | sha384 => "SHA-384"
  | sha512 => "SHA-512"

/-- The identifier of a digest. -/
def oid : Digest → Oid
  | sha1 => Oid.sha1
  | sha224 => Oid.sha224
  | sha256 => Oid.sha256
  | sha384 => Oid.sha384
  | sha512 => Oid.sha512

/-- The digest with an identifier `o`. -/
def ofOid? (o : Oid) : Option Digest := all.find? (·.oid == o)

/-- The digest of a message. -/
def hash : Digest → Bytes → Bytes
  | sha1 => Sha1.hash
  | sha224 => Sha2.hash224
  | sha256 => Sha2.hash256
  | sha384 => Sha2.hash384
  | sha512 => Sha2.hash512

/-- The keyed digest of a `message` under a `hash` with the given `block` length. -/
def hmac (hash : Bytes → Bytes) (block : Nat) (key message : Bytes) : Bytes :=
  let key := if block < key.length then hash key else key
  let key := key ++ List.replicate (block - key.length) 0
  hash (key.map (· ^^^ 0x5C) ++ hash (key.map (· ^^^ 0x36) ++ message))

end Digest

end Pkix
