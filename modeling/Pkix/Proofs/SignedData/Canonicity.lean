import Pkix.Proofs.Der.Canonicity
import Pkix.Proofs.SignedData.Stability

/-!
# The order of the parts does not show

All elements of the sets of signed data are SEQUENCEs, and so are the attributes of a set, so the
order in which they are listed leaves no trace in the encoding. The values of an attribute may have
any tags: there the order shows where two values differ in form alone.

* `SignedData.encoding_of_perm`: signed data and attribute sets are written in the same way whatever
  the order of their parts.
* `Attribute.setOf_canonical`: when a set of values, or an attribute, is.
-/

namespace Pkix

open Der

/-! ## Sets of sequences -/

/-- A set of sequences `es` is written in the same way from any order, `fs`. -/
theorem Der.Write.setOf_sequences_of_perm {es fs : List Bytes} (tag : UInt8) (h : es.Perm fs)
    (hes : ∀ e ∈ es, ∃ content, e = Write.element Tag.sequence content) :
    Write.setOf tag es = Write.setOf tag fs := by
  rw [setOf, setOf, SetOrder.sort_elements_eq_of_perm (by decide) h hes]

/-- A set of different attributes `as` can be made in any order, `as'`, with one encoding. -/
theorem AttributeSet.exists_new_of_perm {as as' : List Attribute} (h : as.Perm as')
    (hdistinct : (as.map Attribute.id).Nodup) :
    ∃ s s', new as = .ok s ∧ new as' = .ok s' ∧ s'.encoded = s.encoded := by
  have hdistinct' := (h.map Attribute.id).nodup_iff.mp hdistinct
  refine ⟨⟨as, _, Attribute.repeated?_eq_none.mpr hdistinct⟩,
    ⟨as', _, Attribute.repeated?_eq_none.mpr hdistinct'⟩, new_eq_ok.mpr ⟨rfl, rfl⟩,
    new_eq_ok.mpr ⟨rfl, rfl⟩, ?_⟩
  exact (Write.setOf_sequences_of_perm Tag.set (h.map Attribute.octets)
    (List.forall_mem_map.mpr fun a _ => ⟨_, rfl⟩)).symm

namespace SignedData

theorem optionalSet_sequences_of_perm {es fs : List Bytes} (tag : UInt8) (h : es.Perm fs)
    (hes : ∀ e ∈ es, ∃ content, e = Write.element Tag.sequence content) :
    optionalSet tag es = optionalSet tag fs := by
  rw [optionalSet, optionalSet, Write.setOf_sequences_of_perm tag h hes, h.isEmpty_eq]

variable {as as' : List Algorithm} {cs cs' : List Certificate} {rs rs' : List Crl}
  {ss ss' : List Signer}

/-- What is written for the parts `as`, `cs`, `rs` and `ss` is written for them in any order. -/
theorem octets_of_perm {content : ContentInfo} {b : Bytes} (has : as.Perm as') (hcs : cs.Perm cs')
    (hrs : rs.Perm rs') (hss : ss.Perm ss') (h : (new as content cs rs ss).octets = .ok b) :
    (new as' content cs' rs' ss').octets = .ok b := by
  simp only [octets, new, bind_eq_ok, pure_eq_ok] at h ⊢
  obtain ⟨es, hes, rfl⟩ := h
  obtain ⟨es', hes', hperm⟩ := exists_mapM_of_perm hss hes
  refine ⟨es', hes', ?_⟩
  have hsigners :=
    Write.setOf_sequences_of_perm Tag.set hperm (Signer.exists_content_of_mapM hes)
  have hdigests := Write.setOf_sequences_of_perm Tag.set (has.map Algorithm.octets)
    (List.forall_mem_map.mpr fun a _ => ⟨_, rfl⟩)
  have hcertificates := optionalSet_sequences_of_perm certificatesTag
    (hcs.map Certificate.octets) (List.forall_mem_map.mpr fun c _ => c.exists_content)
  have hcrls := optionalSet_sequences_of_perm crlsTag (hrs.map Crl.octets)
    (List.forall_mem_map.mpr fun c _ => c.exists_content)
  rw [hsigners, hdigests, hcertificates, hcrls]

/-- **The order of the parts does not show.** Signed data is written for its algorithms `as`,
certificates `cs`, revocation lists `rs` and signers `ss` in one order exactly as for those in
another order, and different `attributes` in whatever order make sets with one encoding. -/
theorem encoding_of_perm {attributes attributes' : List Attribute} (content : ContentInfo)
    (has : as.Perm as') (hcs : cs.Perm cs') (hrs : rs.Perm rs') (hss : ss.Perm ss')
    (hattributes : attributes.Perm attributes')
    (hdistinct : (attributes.map Attribute.id).Nodup) :
    (∀ b, (new as content cs rs ss).octets = .ok b ↔
      (new as' content cs' rs' ss').octets = .ok b) ∧
    ∃ s s', AttributeSet.new attributes = .ok s ∧ AttributeSet.new attributes' = .ok s' ∧
      s'.encoded = s.encoded :=
  ⟨fun _ => ⟨octets_of_perm has hcs hrs hss,
      octets_of_perm has.symm hcs.symm hrs.symm hss.symm⟩,
    AttributeSet.exists_new_of_perm hattributes hdistinct⟩

/-- `encoding_of_perm` at signed data with its certificates in the other order, and attributes in
the other order. -/
theorem exists_encoding_of_perm_unambiguousSample :
    ∃ p b, ofOctets unambiguousSample .default = .ok p ∧ p.certificates.length = 2 ∧
      (new p.digestAlgorithms p.content p.certificates p.crls p.signers).octets = .ok b ∧
      (new p.digestAlgorithms p.content p.certificates.reverse p.crls p.signers).octets = .ok b ∧
      ∃ s s', AttributeSet.new [Signer.sampleDigest, Attribute.contentType Oid.data] = .ok s ∧
        AttributeSet.new [Attribute.contentType Oid.data, Signer.sampleDigest] = .ok s' ∧
        s'.encoded = s.encoded := by
  obtain ⟨p, hp, hfacts⟩ := exists_of_map_toOption (x := ofOctets unambiguousSample .default)
    (f := fun p => (p.certificates.length,
      (new p.digestAlgorithms p.content p.certificates p.crls p.signers).octets.toOption.isSome))
    (b := (2, true)) (by decide +kernel)
  simp only [Prod.mk.injEq, Option.isSome_iff_exists, toOption_eq_some] at hfacts
  obtain ⟨hlen, b, hb⟩ := hfacts
  obtain ⟨hdata, hsets⟩ := encoding_of_perm p.content (.refl p.digestAlgorithms)
    p.certificates.reverse_perm.symm (.refl p.crls) (.refl p.signers)
    (List.Perm.swap (Attribute.contentType Oid.data) Signer.sampleDigest []) (by decide +kernel)
  exact ⟨p, b, hp, hlen, hb, (hdata b).mp hb, hsets⟩

end SignedData

/-! ## Values of attributes -/

namespace Attribute

/-- Attributes of one type `id` are written in the same way where their sets of values are. -/
theorem octets_eq_iff {id : Oid} {vs ws : List Value} :
    (Attribute.mk id vs).octets = (Attribute.mk id ws).octets ↔
      Write.setOf Tag.set (vs.map Value.octets) = Write.setOf Tag.set (ws.map Value.octets) := by
  constructor
  · intro h
    exact List.append_cancel_left (Write.content_of_element h)
  · intro h
    rw [octets, octets, h]

/-- **When the order of values shows.** In whatever order the values `vs` are listed, their set is
written in one way up to the form of the values (`Value.primitive`). It is written in one way, under
any `tag` octet and in an attribute, exactly where no two of the values differ in form alone
(`TellsApart`). -/
theorem setOf_canonical (tag : UInt8) (id : Oid) (vs : List Value) :
    (∀ ws, vs.Perm ws → ∃ us us', us.Perm vs ∧ us'.Perm vs ∧
      Write.setOf tag (vs.map Value.octets) = Write.element tag (Write.values us) ∧
      Write.setOf tag (ws.map Value.octets) = Write.element tag (Write.values us') ∧
      us'.map Value.primitive = us.map Value.primitive) ∧
    ((∀ ws, vs.Perm ws →
      Write.setOf tag (ws.map Value.octets) = Write.setOf tag (vs.map Value.octets)) ↔
        SetOrder.TellsApart vs) ∧
    ((∀ ws, vs.Perm ws → (Attribute.mk id ws).octets = (Attribute.mk id vs).octets) ↔
      SetOrder.TellsApart vs) := by
  refine ⟨fun ws hws => ?_, SetOrder.setOf_perm_iff_tellsApart, ?_⟩
  · exact ⟨SetOrder.sortBy Value.octets vs, SetOrder.sortBy Value.octets ws,
      SetOrder.sortBy_perm _ _, (SetOrder.sortBy_perm _ _).trans hws.symm,
      Write.setOf_octets tag vs, Write.setOf_octets tag ws,
      (SetOrder.map_primitive_sortBy hws).symm⟩
  · simp only [octets_eq_iff]
    exact SetOrder.setOf_perm_iff_tellsApart

/-- `setOf_canonical` at a NULL and a BOOLEAN, which are told apart. -/
theorem setOf_canonical_pair :
    (Attribute.mk Oid.contentType
        [Value.ofOctet Tag.null [], Value.ofOctet Tag.boolean [0]]).octets =
      (Attribute.mk Oid.contentType
        [Value.ofOctet Tag.boolean [0], Value.ofOctet Tag.null []]).octets ∧
    Write.setOf Tag.set ([Value.ofOctet Tag.null [], Value.ofOctet Tag.boolean [0]].map
        Value.octets) =
      Write.setOf Tag.set ([Value.ofOctet Tag.boolean [0], Value.ofOctet Tag.null []].map
        Value.octets) := by
  obtain ⟨-, hset, hattribute⟩ := setOf_canonical Tag.set Oid.contentType
    [Value.ofOctet Tag.boolean [0], Value.ofOctet Tag.null []]
  exact ⟨hattribute.mpr (by decide) _ (.swap _ _ _), hset.mpr (by decide) _ (.swap _ _ _)⟩

/-- Two values that the order of sets does not tell apart: they differ in `constructed` alone. -/
def twins : List Value := [⟨⟨.context, false, 0⟩, []⟩, ⟨⟨.context, true, 0⟩, []⟩]

/-- The values `twins` are written as they are listed. -/
theorem setOf_twins :
    twins.Perm twins.reverse ∧
    Write.setOf Tag.set (twins.map Value.octets) = [0x31, 0x04, 0x80, 0x00, 0xa0, 0x00] ∧
    Write.setOf Tag.set (twins.reverse.map Value.octets) = [0x31, 0x04, 0xa0, 0x00, 0x80, 0x00] ∧
    (Attribute.mk Oid.contentType twins).octets ≠
      (Attribute.mk Oid.contentType twins.reverse).octets := by
  have hfirst : Write.setOf Tag.set (twins.map Value.octets) =
      [0x31, 0x04, 0x80, 0x00, 0xa0, 0x00] := by
    rw [Write.setOf, SetOrder.sort_of_sorted (by decide)]
    decide
  have hsecond : Write.setOf Tag.set (twins.reverse.map Value.octets) =
      [0x31, 0x04, 0xa0, 0x00, 0x80, 0x00] := by
    rw [Write.setOf, SetOrder.sort_of_sorted (by decide)]
    decide
  refine ⟨twins.reverse_perm.symm, hfirst, hsecond, fun h => ?_⟩
  rw [octets_eq_iff, hfirst, hsecond] at h
  revert h
  decide

end Attribute

end Pkix
