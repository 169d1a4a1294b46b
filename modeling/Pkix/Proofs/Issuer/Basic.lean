import Pkix.Proofs.Certificate.Conversion
import Pkix.Proofs.SignedData.Signing
import Pkix.Proofs.Signed

/-!
# What issuers write and sign

* `Signed.verify_signed`: a structure that was signed with a key verifies with it.
* `EncodedExtension.eq_of_ofValue?`: an extension is read with the parts that it was written with;
  `EncodedExtension.extension_eq`: its identifier is the same if its arcs fit 32 bits.
* `EncodedName.name_of_length`: a name of moderate length is looked into as it stands.
-/

namespace Pkix

open Der

/-! ## Signatures -/

theorem PrivateKey.scheme_signatureAlgorithm (k : PrivateKey) :
    k.signatureAlgorithm.scheme = k.publicKey.scheme := by
  cases k with
  | rsa k => rfl
  | ed25519 k => rfl
  | ecdsa k =>
    unfold signatureAlgorithm
    dsimp only
    cases k.publicKey.curve <;> rfl

/-- A structure of a `body` that is signed with the key `k`, in the algorithm of `k`, verifies. -/
theorem Signed.verify_signed {k : PrivateKey} {body signature : Bytes} (hk : k.Genuine)
    (h : k.sign k.signatureAlgorithm.digest body = .ok signature) :
    Signed.verify ⟨body, k.signatureAlgorithm.algorithm, signature⟩ k.publicKey = .ok true := by
  rw [Signed.verify, SignatureAlgorithm.ofAlgorithm_algorithm]
  show k.publicKey.verify k.signatureAlgorithm.scheme _ _ _ = _
  rw [k.scheme_signatureAlgorithm]
  exact hk _ _ _ h

/-! ## Names -/

namespace EncodedName

/-- The value with the name `n`. -/
def value (n : EncodedName) : Value :=
  Value.ofOctet Tag.sequence (n.rdns.flatMap fun rdn => Write.element Tag.set rdn.flatten)

theorem octets_value (n : EncodedName) : n.value.octets = n.octets :=
  Value.octets_ofOctet (by decide) _

/-- A name `n` is looked into where its octets stand, within the limit. -/
theorem name_of_length {n : EncodedName} (h : n.octets.length ≤ Limits.default.maxInput) :
    n.name = Name.ofValue .default n.value := by
  rw [name, Name.ofOctets, decode_eq_ok.mpr ⟨h, n.octets_value⟩]
  rfl

theorem ofValue_of_name {n : EncodedName} {name : Name} (h : n.name = .ok name) :
    Name.ofValue .default n.value = .ok name := by
  obtain ⟨v, hv, -⟩ := bind_eq_ok.mp h
  rw [← name_of_length (decode_eq_ok.mp hv).1, h]

end EncodedName

/-! ## Extensions -/

namespace EncodedExtension

/-- What stands inside the SEQUENCE of an extension with the identifier `id`. -/
def contentOf (id : Bytes) (critical : Bool) (value : Bytes) : Bytes :=
  Write.element Tag.oid id ++ ((if critical then Write.boolean true else []) ++
    Write.octetString value)

variable {id value : Bytes} {critical : Bool} {e : EncodedExtension}

open Reader in
/-- The flag `critical` of an extension is read where it was written. -/
theorem critical_of_optional {o : Option Bool} {left : Bytes}
    (h : Reader.optional (· == Tag.boolean) Reader.boolean
      ((if critical then Write.boolean true else []) ++ Write.octetString value) =
        some (o, left)) : o.getD false = critical ∧ left = Write.octetString value := by
  cases critical with
  | false =>
    obtain ⟨rfl, rfl⟩ := of_optional_other (b := Write.octetString value) (by
      intro x hx
      cases hx
      decide) h
    exact ⟨rfl, rfl⟩
  | true =>
    obtain ⟨⟨b, rfl, hread⟩, rfl⟩ := of_optional_element (by decide) (by decide) (by decide) h
    have hvalue := Value.boolean_eq_ok.mp (toOption_eq_some.mp hread)
    cases b with
    | false => exact absurd hvalue (by decide)
    | true => exact ⟨rfl, rfl⟩

open Reader in
/-- An extension `e` that is read has the parts that were written. -/
theorem eq_of_ofValue? (hlen : (contentOf id critical value).length < UInt32.size)
    (h : ofValue? (Value.ofOctet Tag.sequence (contentOf id critical value)) = some e) :
    e.id = id ∧ e.critical = critical ∧ e.value = value := by
  obtain ⟨⟨id', critical', value'⟩, hread, hnew⟩ := Option.bind_eq_some_iff.mp h
  obtain ⟨-, hread⟩ := sequence_eq_some.mp hread
  simp only [bind_eq_some, pure_eq_some, Value.content_ofOctet, contentOf] at hread
  obtain ⟨id₁, b₁, hid, o, b₂, hcritical, value₁, b₃, hvalue, heq, rfl⟩ := hread
  obtain ⟨hidLen, hrest⟩ := Write.length_lt_of_element_append hlen
  rw [List.length_append] at hrest
  obtain ⟨hread, rfl⟩ := of_next_element (by decide) hidLen hid
  cases hread
  obtain ⟨hflag, rfl⟩ := critical_of_optional hcritical
  have hvalueLen := Nat.lt_of_le_of_lt (Write.length_le_element Tag.octetString value)
    (Nat.lt_of_le_of_lt (Nat.le_add_left _ _) hrest)
  rw [← List.append_nil (Write.octetString value)] at hvalue
  obtain ⟨hread, -⟩ := of_next_element (by decide) hvalueLen hvalue
  have hoctets := Value.octetString_eq_ok.mp (toOption_eq_some.mp hread)
  cases heq
  dsimp only [new?] at hnew
  split at hnew
  · cases hnew
    exact ⟨rfl, hflag, (congrArg Value.content hoctets).symm⟩
  · cases hnew

/-- The identifier of an extension `e` is the one that was written, if the arcs of `x.id` fit 32
bits. -/
theorem extension_eq {x : Extension} (hid : e.id = x.id.content)
    (hcritical : e.critical = x.critical) (hvalue : e.value = x.value)
    (harcs : ∀ a ∈ x.id.arcs, a < UInt32.size) : e.extension = x := by
  obtain ⟨id, critical, value, hvalid⟩ := e
  obtain ⟨xid, xcritical, xvalue⟩ := x
  cases hid
  cases hcritical
  cases hvalue
  have hread := (Option.some_get hvalid).symm
  rw [extension, (Oid.eq_iff_of_arcs (Oid.arcs_of_ofNarrow? hread)).mpr harcs]

end EncodedExtension

end Pkix
