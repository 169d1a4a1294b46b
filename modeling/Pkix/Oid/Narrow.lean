import Pkix.Oid.Codec

/-!
# Object identifiers inside certificate structures

Certificates, revocation lists and key containers hold an object identifier in 3 to 39 content
octets, with an arc in 32 bits. `Oid.narrow?` is an identifier as such a structure gives it
back, if the structure can hold it.
-/

namespace Pkix.Oid

/-- Continues to read 32-bit arcs from `b`; `size` octets of the current one make `acc` so far.
An arc has at most four octets, or five of which the last is below 16. Bits beyond the 32nd are
lost. -/
def narrowArcsFrom (size acc : Nat) : Bytes → List Nat → Option (List Nat)
  | [], done => if size = 0 then some done.reverse else none
  | x :: rest, done =>
    if 4 ≤ size ∧ 0x10 ≤ x then none
    else
      let n := (acc * 128 + x.toNat % 128) % UInt32.size
      if x < 0x80 then narrowArcsFrom 0 0 rest (n :: done)
      else narrowArcsFrom (size + 1) n rest done

/-- The arcs that `content` octets have in a certificate structure, if it can hold them. The first
octet alone joins the first two arcs. -/
def narrowArcs? (content : Bytes) : Option (List Nat) :=
  match content with
  | [] => none
  | first :: rest =>
    if 120 ≤ first ∨ content.length < 3 ∨ 39 < content.length then none
    else (narrowArcsFrom 0 0 rest []).map fun arcs =>
      first.toNat / 40 :: first.toNat % 40 :: arcs

/-- The identifier that `content` octets stand for in a certificate structure. -/
def ofNarrow? (content : Bytes) : Option Oid :=
  (narrowArcs? content).bind fun arcs => (ofArcs arcs).toOption

/-- The identifier `o` as a certificate structure gives it back. -/
def narrow? (o : Oid) : Except Error Oid :=
  match narrowArcs? o.content with
  | none => .error (.encoding (.oidTooLarge o))
  | some arcs => ofArcs arcs

end Pkix.Oid
