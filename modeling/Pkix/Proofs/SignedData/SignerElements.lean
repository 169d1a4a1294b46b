import Pkix.Proofs.SignedData.Signer

/-!
# Signers element by element

A signer is a sequence of at most nine elements. What the current grammar reads is written again as
it was; the legacy grammar may also pass over a plain set before either set of attributes.

* `Signer.exists_elements`: the elements, and which of them are the attributes.
* `Signer.written_as_read`: a signer that was read is written octet for octet, and the octets that
  its signature is over are those of the element that held its attributes, under the tag of a SET.
* `Signer.legacy_passes_strays`: the legacy grammar reads what the current one reads with at most
  two plain sets put in. `Signer.exists_stray_dropped`: these need not be empty.
-/

namespace Pkix.Signer

open Der

variable {limits limits' : Limits} {g : Grammar} {v : Value} {s : Signer} {tag : UInt8}

/-! ## The elements -/

/-- Elements `vs` under an `other` tag are no attributes. -/
theorem filter_is_eq_nil {other : UInt8} {vs : List Value} (h : ∀ r ∈ vs, r.is other = true)
    (hne : Tag.ofOctet other ≠ Tag.ofOctet tag) : vs.filter (·.is tag) = [] := by
  refine List.filter_eq_nil_iff.mpr fun r hr htag => hne ?_
  have hother := congrArg Value.tag (Value.is_iff.mp (h r hr))
  have htag := congrArg Value.tag (Value.is_iff.mp htag)
  exact hother.symm.trans htag

/-- Attributes `under` a tag are at most one element. -/
theorem exists_values_under {o : Option AttributeSet} (htag : Value.Short tag)
    (ho : ∀ set ∈ o, set.Legible limits) :
    ∃ vs : List Value, under tag o = Write.values vs ∧ vs.length ≤ 1 ∧ (∀ r ∈ vs, r.Framed) ∧
      (∀ r ∈ vs, r.is tag = true) ∧
      vs.map (fun r => Write.implicit Tag.set r.octets) = o.toList.map AttributeSet.encoded := by
  cases o with
  | none => exact ⟨[], rfl, by simp, by simp, by simp, rfl⟩
  | some set =>
    obtain ⟨v, hframed, hv⟩ := ho set rfl
    have hoctets : (v.retag tag).octets = Write.element tag v.content :=
      Value.octets_ofOctet htag _
    have hencoded : set.encoded = Write.implicit Tag.set (v.retag tag).octets := by
      rw [hoctets, (AttributeSet.ofValue_eq_ok.mp hv).2]
      rfl
    refine ⟨[v.retag tag], ?_, by simp, ?_, ?_, by simp [hencoded]⟩
    · rw [under, implicit_of_ofValue tag hv, ← hoctets]
      simp [Write.values]
    · have hframed : (v.retag tag).Framed := hframed
      simpa using hframed
    · have htag : (v.retag tag).is tag = true := Value.is_ofOctet tag v.content
      simpa using htag

/-- A stray set `a` is at most one element. -/
theorem exists_values_of_stray {a : Bytes} (h : Stray g a) :
    ∃ vs : List Value, a = Write.values vs ∧ vs.length ≤ 1 ∧ (∀ r ∈ vs, r.Framed) ∧
      ∀ r ∈ vs, r.is Tag.set = true := by
  have hnil : ∃ vs : List Value, [] = Write.values vs ∧ vs.length ≤ 1 ∧ (∀ r ∈ vs, r.Framed) ∧
      ∀ r ∈ vs, r.is Tag.set = true := ⟨[], rfl, by simp, by simp, by simp⟩
  cases g with
  | current =>
    obtain rfl : a = [] := h
    exact hnil
  | legacy =>
    obtain rfl | ⟨content, hlen, rfl⟩ := h
    · exact hnil
    · have hframed : (Value.ofOctet Tag.set content).Framed := hlen
      refine ⟨[Value.ofOctet Tag.set content], ?_, by simp, by simpa using hframed,
        by simpa using Value.is_ofOctet _ _⟩
      rw [← Value.octets_ofOctet (by decide)]
      simp [Write.values]

/-- The elements `es` of a signer `s`. Those under the tags of attributes are its attributes. -/
theorem exists_elements {a u : Bytes} (h : s.Legible limits) (ha : Stray g a) (hu : Stray g u) :
    ∃ es : List Value, s.bodyWith a u = Write.values es ∧ es.length ≤ 9 ∧ (∀ e ∈ es, e.Framed) ∧
      (es.filter (·.is authenticatedTag)).map (fun r => Write.implicit Tag.set r.octets) =
        s.authenticated.toList.map AttributeSet.encoded ∧
      (es.filter (·.is unauthenticatedTag)).map (fun r => Write.implicit Tag.set r.octets) =
        s.unauthenticated.toList.map AttributeSet.encoded := by
  obtain ⟨as, has, hlen₁, hframed₁, hset₁⟩ := exists_values_of_stray ha
  obtain ⟨us, hus, hlen₂, hframed₂, hset₂⟩ := exists_values_of_stray hu
  obtain ⟨xs, hxs, hlen₃, hframed₃, htag₃, hencoded₃⟩ :=
    exists_values_under (show Value.Short authenticatedTag by decide) h.authenticated
  obtain ⟨ys, hys, hlen₄, hframed₄, htag₄, hencoded₄⟩ :=
    exists_values_under (show Value.Short unauthenticatedTag by decide) h.unauthenticated
  let front : List Value := [Value.ofOctet Tag.integer (BigEndian.ofInt s.version.toNat),
    Value.ofOctet Tag.sequence (s.issuer.octets ++ Write.integer s.serial), s.digestAlgorithm.value]
  let middle : List Value :=
    [s.encryptionAlgorithm.value, Value.ofOctet Tag.octetString s.signature]
  have hword : (BigEndian.ofInt s.version.toNat).length < UInt32.size :=
    BigEndian.length_ofInt_word s.version
  refine ⟨front ++ as ++ xs ++ middle ++ us ++ ys, ?_, ?_, ?_, ?_, ?_⟩
  · simp only [bodyWith, has, hus, hxs, hys, front, middle, Write.values, List.flatMap_append,
      List.flatMap_cons, List.flatMap_nil, Algorithm.octets_value, identity, Write.word,
      Write.integer, Write.octetString, List.append_assoc, List.append_nil,
      Value.octets_ofOctet (show Value.Short Tag.integer by decide),
      Value.octets_ofOctet (show Value.Short Tag.sequence by decide),
      Value.octets_ofOctet (show Value.Short Tag.octetString by decide)]
  · simp only [front, middle, List.length_append, List.length_cons, List.length_nil]
    omega
  · have hfront : ∀ e ∈ front, e.Framed := by
      simpa [front] using ⟨hword, h.length_identity, h.length_digestAlgorithm⟩
    have hmiddle : ∀ e ∈ middle, e.Framed := by
      simpa [middle] using ⟨h.length_encryptionAlgorithm, h.length_signature⟩
    simp only [List.forall_mem_append]
    exact ⟨⟨⟨⟨⟨hfront, hframed₁⟩, hframed₃⟩, hmiddle⟩, hframed₂⟩, hframed₄⟩
  · have hfront : front.filter (·.is authenticatedTag) = [] := rfl
    have hmiddle : middle.filter (·.is authenticatedTag) = [] := rfl
    have has : as.filter (·.is authenticatedTag) = [] := filter_is_eq_nil hset₁ (by decide)
    have hus : us.filter (·.is authenticatedTag) = [] := filter_is_eq_nil hset₂ (by decide)
    have hys : ys.filter (·.is authenticatedTag) = [] := filter_is_eq_nil htag₄ (by decide)
    simp only [List.filter_append, hfront, hmiddle, has, hus, hys, List.filter_eq_self.mpr htag₃,
      List.append_nil, List.nil_append, hencoded₃]
  · have hfront : front.filter (·.is unauthenticatedTag) = [] := rfl
    have hmiddle : middle.filter (·.is unauthenticatedTag) = [] := rfl
    have has : as.filter (·.is unauthenticatedTag) = [] := filter_is_eq_nil hset₁ (by decide)
    have hus : us.filter (·.is unauthenticatedTag) = [] := filter_is_eq_nil hset₂ (by decide)
    have hxs : xs.filter (·.is unauthenticatedTag) = [] := filter_is_eq_nil htag₃ (by decide)
    simp only [List.filter_append, hfront, hmiddle, has, hus, hxs, List.filter_eq_self.mpr htag₄,
      List.append_nil, List.nil_append, hencoded₄]

/-- What is read of the elements `vs` of a value under the tags of attributes. -/
theorem attributes_of_children {vs : List Value} (h : ofValue limits g v = .ok s)
    (hvs : v.children limits' = .ok vs) :
    (vs.filter (·.is authenticatedTag)).map (fun r => Write.implicit Tag.set r.octets) =
        s.authenticated.toList.map AttributeSet.encoded ∧
      (vs.filter (·.is unauthenticatedTag)).map (fun r => Write.implicit Tag.set r.octets) =
        s.unauthenticated.toList.map AttributeSet.encoded := by
  obtain ⟨hlegible, a, u, ha, hu, rfl⟩ := ofValue_eq_ok.mp h
  obtain ⟨es, hes, -, hframed, hattributes⟩ := exists_elements hlegible ha hu
  obtain ⟨-, hcontent, hframed', -⟩ := Value.children_eq_ok.mp hvs
  obtain rfl := Write.values_inj hframed' hframed (hcontent.symm.trans hes)
  exact hattributes

/-- There are few enough elements in a signer to be listed under the `.default` limits. -/
theorem exists_children (h : ofValue limits g v = .ok s) : ∃ vs, v.children .default = .ok vs := by
  obtain ⟨hlegible, a, u, ha, hu, rfl⟩ := ofValue_eq_ok.mp h
  obtain ⟨es, hes, hlen, hframed, -⟩ := exists_elements hlegible ha hu
  exact ⟨es, Value.children_eq_ok.mpr ⟨rfl, hes, hframed, Nat.le_trans hlen (by decide)⟩⟩

/-- An element `r` under the tag of attributes holds the attributes. -/
theorem encoded_of_mem {o : Option AttributeSet} {vs : List Value}
    (h : (vs.filter (·.is tag)).map (fun r => Write.implicit Tag.set r.octets) =
      o.toList.map AttributeSet.encoded) {r : Value} (hr : r ∈ vs) (htag : r.is tag = true) :
    ∃ set, o = some set ∧ set.encoded = Write.implicit Tag.set r.octets := by
  have hmem : Write.implicit Tag.set r.octets ∈ o.toList.map AttributeSet.encoded :=
    h ▸ List.mem_map_of_mem (List.mem_filter.mpr ⟨hr, htag⟩)
  obtain ⟨set, hset, hencoded⟩ := List.mem_map.mp hmem
  exact ⟨set, Option.mem_toList.mp hset, hencoded⟩

/-! ## Writing again -/

/-- **Writing again.** A signer `s` that was read in the `.current` grammar is written as it was
read, octet for octet. If it had an element `r` under the tag of the signed attributes, then what
its signature is over are the octets of `r`, but for the first one, in whatever order the attributes
and their values stood. -/
theorem written_as_read (hlen : v.octets.length ≤ Limits.default.maxInput)
    (h : ofValue .default .current v = .ok s) :
    s.octets = .ok v.octets ∧
      ∃ vs, v.children .default = .ok vs ∧
        (∀ r ∈ vs, r.is authenticatedTag = true →
          ∃ set, s.authenticated = some set ∧ set.encoded = Write.implicit Tag.set r.octets) ∧
        ((∀ r ∈ vs, r.is authenticatedTag = false) → s.authenticated = none) := by
  have hframed : v.Framed := Value.framed_of_length (Nat.lt_of_le_of_lt hlen (by decide))
  obtain ⟨rfl, hread⟩ := (ofValue_current_eq_ok hframed).mp h
  obtain ⟨-, hauth, hunauth⟩ := readable_of_ofValue h
  have hcontent := s.value.length_content_le
  refine ⟨(octets_eq_ok hread.hasSets).mpr ⟨⟨fun set hset => ?_, fun set hset => ?_⟩, rfl⟩, ?_⟩
  · have := hauth set hset
    omega
  · have := hunauth set hset
    omega
  · obtain ⟨vs, hvs⟩ := exists_children h
    obtain ⟨hattributes, -⟩ := attributes_of_children h hvs
    refine ⟨vs, hvs, fun r hr htag => encoded_of_mem hattributes hr htag, fun hnone => ?_⟩
    rw [List.filter_eq_nil_iff.mpr (by simpa using hnone), List.map_nil] at hattributes
    simpa using hattributes.symm

/-- A signer with something, the octets `attributes`, between its two algorithms. -/
def signerAround (attributes : Bytes) : Value :=
  Value.ofOctet Tag.sequence
    (Write.word 1 ++ Write.element Tag.sequence (Write.sequence [] ++ Write.integer 1) ++
      (Algorithm.plain Oid.sha256).octets ++ attributes ++
      (Algorithm.plain Oid.rsaEncryption).octets ++ Write.octetString [])

/-- Attributes in another order than the canonical one, the first one with two values that are in
another order too. -/
def unorderedAttributes : Bytes :=
  Write.element Tag.sequence
      (Write.oid Oid.contentType ++ Write.element Tag.set (Write.integer 2 ++ Write.integer 1)) ++
    (Attribute.messageDigest [7]).octets

/-- `written_as_read` at `unorderedAttributes`, which stay as they are. -/
theorem exists_written_as_read :
    ∃ (v : Value) (s : Signer) (set : AttributeSet),
      v = signerAround (Write.element authenticatedTag unorderedAttributes) ∧
      v.octets.length ≤ Limits.default.maxInput ∧ ofValue .default .current v = .ok s ∧
      s.octets = .ok v.octets ∧ s.authenticated = some set ∧
      set.encoded = Write.element Tag.set unorderedAttributes := by
  obtain ⟨s, hs, -⟩ := exists_of_map_toOption
    (x := ofValue .default .current
      (signerAround (Write.element authenticatedTag unorderedAttributes)))
    (f := fun _ => ()) (b := ()) (by decide +kernel)
  have hlen : (signerAround (Write.element authenticatedTag unorderedAttributes)).octets.length ≤
      Limits.default.maxInput := by decide +kernel
  obtain ⟨hoctets, vs, hvs, hset, -⟩ := written_as_read hlen hs
  have hmem : Value.ofOctet authenticatedTag unorderedAttributes ∈ vs := by
    have : ((signerAround (Write.element authenticatedTag unorderedAttributes)).children
        .default).toOption.map (decide <| Value.ofOctet authenticatedTag unorderedAttributes ∈ ·) =
          some true := by decide +kernel
    rw [hvs] at this
    simpa [Except.toOption] using this
  obtain ⟨set, hauth, hencoded⟩ := hset _ hmem (Value.is_ofOctet _ _)
  rw [Value.octets_ofOctet (by decide)] at hencoded
  exact ⟨_, s, set, rfl, hlen, hs, hoctets, hauth, hencoded⟩

/-! ## The legacy grammar -/

/-- **Strays.** The `.legacy` grammar reads a value `v` as a signer `s` exactly where it is one,
`w`, that the `.current` grammar reads as the same signer, with at most one plain set put in right
before either place for attributes, `a` and `u`. What such a set holds does not count; what is under
the tags of attributes is kept. So whatever the current grammar reads, the legacy one reads as the
same signer. -/
theorem legacy_passes_strays (limits : Limits) (v : Value) (s : Signer) :
    (ofValue limits .legacy v = .ok s ↔
      ∃ w a u, ofValue limits .current w = .ok s ∧ Stray .legacy a ∧ Stray .legacy u ∧
        w = s.valueWith [] [] ∧ v = s.valueWith a u) ∧
    (ofValue limits .current v = .ok s → ofValue limits .legacy v = .ok s) ∧
    (ofValue limits .legacy v = .ok s → ∃ vs, v.children .default = .ok vs ∧ ∀ r ∈ vs,
      (r.is authenticatedTag = true →
        ∃ set, s.authenticated = some set ∧ set.encoded = Write.implicit Tag.set r.octets) ∧
      (r.is unauthenticatedTag = true →
        ∃ set, s.unauthenticated = some set ∧ set.encoded = Write.implicit Tag.set r.octets)) := by
  refine ⟨⟨fun h => ?_, ?_⟩, fun h => ?_, fun h => ?_⟩
  · obtain ⟨hlegible, a, u, ha, hu, hv⟩ := ofValue_eq_ok.mp h
    exact ⟨_, a, u, ofValue_eq_ok.mpr ⟨hlegible, [], [], rfl, rfl, rfl⟩, ha, hu, rfl, hv⟩
  · rintro ⟨w, a, u, hw, ha, hu, -, hv⟩
    exact ofValue_eq_ok.mpr ⟨(ofValue_eq_ok.mp hw).1, a, u, ha, hu, hv⟩
  · obtain ⟨hlegible, _, _, rfl, rfl, hv⟩ := ofValue_eq_ok.mp h
    exact ofValue_eq_ok.mpr ⟨hlegible, [], [], stray_nil _, stray_nil _, hv⟩
  · obtain ⟨vs, hvs⟩ := exists_children h
    obtain ⟨hauth, hunauth⟩ := attributes_of_children h hvs
    exact ⟨vs, hvs, fun r hr => ⟨encoded_of_mem hauth hr, encoded_of_mem hunauth hr⟩⟩

theorem length_bodyWith (s : Signer) (a u : Bytes) :
    (s.bodyWith a u).length = s.body.length + a.length + u.length := by
  simp only [bodyWith, body, List.length_append]
  omega

/-- A plain set with attributes in it is dropped: the value is read, but is none that is read in the
`.current` grammar with empty sets put in. -/
theorem exists_stray_dropped :
    ∃ s, ofValue .default .legacy (signerAround (Write.element Tag.set unorderedAttributes)) =
        .ok s ∧ s.authenticated = none ∧
      ¬∃ w a u, ofValue .default .current w = .ok s ∧ (a = [] ∨ a = [0x31, 0x00]) ∧
        (u = [] ∨ u = [0x31, 0x00]) ∧ w = s.valueWith [] [] ∧
        signerAround (Write.element Tag.set unorderedAttributes) = s.valueWith a u := by
  obtain ⟨s, hs, hfields⟩ := exists_of_map_toOption
    (x := ofValue .default .legacy (signerAround (Write.element Tag.set unorderedAttributes)))
    (f := fun s => (s.authenticated.isSome, s.body.length)) (b := (false, 38)) (by decide +kernel)
  simp only [Prod.mk.injEq, Option.isSome_eq_false_iff, Option.isNone_iff_eq_none] at hfields
  obtain ⟨hnone, hbody⟩ := hfields
  refine ⟨s, hs, hnone, ?_⟩
  rintro ⟨_, a, u, -, ha, hu, -, hv⟩
  have hlen : (signerAround (Write.element Tag.set unorderedAttributes)).content.length = 79 := by
    decide +kernel
  have hlen : (s.bodyWith a u).length = 79 := by
    rwa [hv] at hlen
  have ha : a.length ≤ 2 := by rcases ha with rfl | rfl <;> simp
  have hu : u.length ≤ 2 := by rcases hu with rfl | rfl <;> simp
  rw [length_bodyWith, hbody] at hlen
  omega

end Pkix.Signer
