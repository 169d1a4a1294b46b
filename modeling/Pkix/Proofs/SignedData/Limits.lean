import Pkix.Proofs.SignedData.Grammars
import Pkix.Proofs.SignedData.Rereading

/-!
# Limits hold at every level, and wider ones change nothing

* `SignedData.Fits`: no list in signed data is longer than the limits allow.
* `SignedData.Readable.fits`: what was read under limits fits them.
* `Limits.Within`: limits that are no wider than others. Every reader answers under the wider ones
  what it answers under the narrower ones: `Name.ofValue_of_within`, `Signer.ofValue_of_within`,
  `SignedData.ofValue_of_within` and so on.
* `SignedData.readEither_of_within`: the two grammars together do so too, because an attempt that
  fails only for its limits never gives way to another grammar.
* `SignedData.limits_hold_and_widen`: what follows for whole encodings.
-/

namespace Pkix

open Der

/-! ## What fits -/

/-- The name `n` has no more relative names than the `limits` allow, and these no more
assertions. -/
structure Name.Fits (limits : Limits) (n : Name) : Prop where
  length_rdns : n.rdns.length ≤ limits.maxElements
  length_assertions : ∀ r ∈ n.rdns, r.assertions.length ≤ limits.maxElements

/-- The set `s` has no more attributes than the `limits` allow, and these no more values. -/
structure AttributeSet.Fits (limits : Limits) (s : AttributeSet) : Prop where
  length_attributes : s.attributes.length ≤ limits.maxElements
  length_values : ∀ a ∈ s.attributes, a.values.length ≤ limits.maxElements

/-- The issuer and all attributes of a signer `s` fit the `limits`. -/
structure Signer.Fits (limits : Limits) (s : Signer) : Prop where
  issuer : s.issuer.Fits limits
  authenticated : ∀ set ∈ s.authenticated, set.Fits limits
  unauthenticated : ∀ set ∈ s.unauthenticated, set.Fits limits

/-- No list in signed data `d` is longer than the `limits` allow. -/
structure SignedData.Fits (limits : Limits) (d : SignedData) : Prop where
  length_digestAlgorithms : d.digestAlgorithms.length ≤ limits.maxElements
  length_certificates : d.certificates.length ≤ limits.maxElements
  length_crls : d.crls.length ≤ limits.maxElements
  length_signers : d.signers.length ≤ limits.maxElements
  signers : ∀ s ∈ d.signers, s.Fits limits

variable {limits limits' : Limits} {v : Value}

theorem Der.Value.length_children {vs : List Value} (h : v.children limits = .ok vs) :
    vs.length ≤ limits.maxElements :=
  (Value.children_eq_ok.mp h).2.2.2

theorem RelativeName.length_assertions {n : RelativeName} (h : ofValue limits v = .ok n) :
    n.assertions.length ≤ limits.maxElements := by
  simp only [ofValue, ite_error_eq_ok, error_ite_eq_ok, bind_eq_ok, pure_eq_ok] at h
  obtain ⟨-, vs, hvs, as, has, -, rfl⟩ := h
  have hcount := Value.length_children hvs
  rwa [← length_of_mapM has] at hcount

theorem Name.Readable.fits {n : Name} (h : n.Readable limits) : n.Fits limits := by
  obtain ⟨v, h⟩ := h
  simp only [ofValue, ite_error_eq_ok, bind_eq_ok, pure_eq_ok] at h
  obtain ⟨-, vs, hvs, rdns, hrdns, rfl⟩ := h
  have hcount := Value.length_children hvs
  rw [← length_of_mapM hrdns] at hcount
  refine ⟨hcount, fun r hr => ?_⟩
  obtain ⟨w, -, hw⟩ := exists_of_mapM hrdns r hr
  exact RelativeName.length_assertions hw

theorem AttributeSet.Readable.fits {s : AttributeSet} (h : s.Readable limits) :
    s.Fits limits := by
  obtain ⟨v, h⟩ := h
  obtain ⟨⟨vs, hvs, has⟩, -⟩ := ofValue_eq_ok.mp h
  obtain ⟨-, -, hframed, hcount⟩ := Value.children_eq_ok.mp hvs
  rw [← length_of_mapM has] at hcount
  refine ⟨hcount, fun a ha => ?_⟩
  obtain ⟨w, hw, h⟩ := exists_of_mapM has a ha
  exact ((Attribute.ofValue_eq_ok (hframed w hw)).mp h).2.2

theorem Signer.Readable.fits {s : Signer} (h : s.Readable limits) : s.Fits limits where
  issuer := h.issuer.fits
  authenticated set hset := (h.authenticated set hset).fits
  unauthenticated set hset := (h.unauthenticated set hset).fits

theorem SignedData.Readable.fits {d : SignedData} (h : d.Readable limits) : d.Fits limits where
  length_digestAlgorithms := h.length_digestAlgorithms
  length_certificates := h.length_certificates
  length_crls := h.length_crls
  length_signers := h.length_signers
  signers s hs := (h.signers s hs).fits

/-! ## Wider limits -/

/-- The `limits` are no wider than the others, `limits'`. -/
structure Der.Limits.Within (limits limits' : Limits) : Prop where
  maxInput : limits.maxInput ≤ limits'.maxInput
  maxElements : limits.maxElements ≤ limits'.maxElements

namespace Der.Cursor

variable {c c' : Cursor}

/-- The same place `c` under other `limits`. -/
def withLimits (c : Cursor) (limits : Limits) : Cursor := { c with limits }

theorem Step.withLimits {b : Bytes} (h : c.Step b c') (limits : Limits) :
    (c.withLimits limits).Step b (c'.withLimits limits) :=
  ⟨h.1, by rw [h.2]; rfl⟩

theorem elements_of_within {tag : UInt8} {vs : List Value} (htag : Value.Short tag)
    (hc : c.limits.Within limits') (h : c.elements tag = .ok (vs, c')) :
    (c.withLimits limits').elements tag = .ok (vs, c'.withLimits limits') := by
  obtain ⟨hstep, hlen, hcount⟩ := (elements_eq_ok htag).mp h
  exact (elements_eq_ok htag).mpr
    ⟨hstep.withLimits limits', hlen, Nat.le_trans hcount hc.maxElements⟩

theorem setOf_of_within {vs : List Value} (hc : c.limits.Within limits')
    (h : c.setOf = .ok (vs, c')) :
    (c.withLimits limits').setOf = .ok (vs, c'.withLimits limits') :=
  elements_of_within (by decide) hc h

end Der.Cursor

theorem Der.Value.children_of_within (hl : limits.Within limits') {vs : List Value}
    (h : v.children limits = .ok vs) : v.children limits' = .ok vs := by
  obtain ⟨hconstructed, hcontent, hframed, hcount⟩ := Value.children_eq_ok.mp h
  exact Value.children_eq_ok.mpr
    ⟨hconstructed, hcontent, hframed, Nat.le_trans hcount hl.maxElements⟩

theorem RelativeName.ofValue_of_within (hl : limits.Within limits') {n : RelativeName}
    (h : ofValue limits v = .ok n) : ofValue limits' v = .ok n := by
  simp only [ofValue, ite_error_eq_ok, error_ite_eq_ok, bind_eq_ok, pure_eq_ok] at h ⊢
  obtain ⟨hset, vs, hvs, as, has, hne, rfl⟩ := h
  exact ⟨hset, vs, Value.children_of_within hl hvs, as, has, hne, rfl⟩

theorem Name.ofValue_of_within (hl : limits.Within limits') {n : Name}
    (h : ofValue limits v = .ok n) : ofValue limits' v = .ok n := by
  simp only [ofValue, ite_error_eq_ok, bind_eq_ok, pure_eq_ok] at h ⊢
  obtain ⟨hseq, vs, hvs, rdns, hrdns, rfl⟩ := h
  exact ⟨hseq, vs, Value.children_of_within hl hvs, rdns,
    mapM_imp (fun _ _ _ => RelativeName.ofValue_of_within hl) hrdns, rfl⟩

theorem Attribute.ofValue_of_within (hl : limits.Within limits') (hv : v.Framed) {a : Attribute}
    (h : ofValue limits v = .ok a) : ofValue limits' v = .ok a := by
  obtain ⟨hcontent, hne, hcount⟩ := (ofValue_eq_ok hv).mp h
  exact (ofValue_eq_ok hv).mpr ⟨hcontent, hne, Nat.le_trans hcount hl.maxElements⟩

theorem AttributeSet.ofValue_of_within (hl : limits.Within limits') {s : AttributeSet}
    (h : ofValue limits v = .ok s) : ofValue limits' v = .ok s := by
  obtain ⟨⟨vs, hvs, has⟩, hencoded⟩ := ofValue_eq_ok.mp h
  obtain ⟨-, -, hframed, -⟩ := Value.children_eq_ok.mp hvs
  exact ofValue_eq_ok.mpr ⟨⟨vs, Value.children_of_within hl hvs,
    mapM_imp (fun w hw _ => Attribute.ofValue_of_within hl (hframed w hw)) has⟩, hencoded⟩

namespace Signer

theorem Legible.of_within (hl : limits.Within limits') {s : Signer} (h : s.Legible limits) :
    s.Legible limits' where
  issuer :=
    have ⟨v, hv⟩ := h.issuer
    ⟨v, Name.ofValue_of_within hl hv⟩
  digestAlgorithm := h.digestAlgorithm
  authenticated set hset :=
    have ⟨v, hframed, hv⟩ := h.authenticated set hset
    ⟨v, hframed, AttributeSet.ofValue_of_within hl hv⟩
  encryptionAlgorithm := h.encryptionAlgorithm
  unauthenticated set hset :=
    have ⟨v, hframed, hv⟩ := h.unauthenticated set hset
    ⟨v, hframed, AttributeSet.ofValue_of_within hl hv⟩
  length_identity := h.length_identity
  length_digestAlgorithm := h.length_digestAlgorithm
  length_encryptionAlgorithm := h.length_encryptionAlgorithm
  length_signature := h.length_signature

theorem ofValue_of_within (hl : limits.Within limits') {g : Grammar} {s : Signer}
    (h : ofValue limits g v = .ok s) : ofValue limits' g v = .ok s := by
  obtain ⟨hlegible, hv⟩ := ofValue_eq_ok.mp h
  exact ofValue_eq_ok.mpr ⟨hlegible.of_within hl, hv⟩

end Signer

/-- A content is read in the same way under any `limits`. -/
theorem ContentInfo.read_withLimits {c c' : Cursor} {g : Grammar} {info : ContentInfo}
    (h : read c g = .ok (info, c')) (limits : Limits) :
    read (c.withLimits limits) g = .ok (info, c'.withLimits limits) := by
  obtain ⟨b, hstep, hread⟩ := exists_read_of_step h
  exact hread (hstep.withLimits limits)

namespace SignedData

variable {b : Bytes} {g : Grammar} {d : SignedData} {c c' : Cursor}

theorem readOptionalSet_of_within {tag : UInt8} {vs : List Value} (htag : Value.Short tag)
    (hc : c.limits.Within limits') (h : readOptionalSet c tag = .ok (vs, c')) :
    readOptionalSet (c.withLimits limits') tag = .ok (vs, c'.withLimits limits') := by
  have hpeek : (c.withLimits limits').peek = c.peek := rfl
  rw [readOptionalSet] at h ⊢
  rw [hpeek]
  split at h
  · rename_i htag'
    rw [if_pos htag']
    exact Cursor.elements_of_within htag hc h
  · rename_i htag'
    rw [if_neg htag']
    cases h
    rfl

theorem readAids_of_within {cs rs : List Value} (hc : c.limits.Within limits')
    (h : readAids c g = .ok (cs, rs, c')) :
    readAids (c.withLimits limits') g = .ok (cs, rs, c'.withLimits limits') := by
  cases g with
  | current =>
    simp only [readAids, bind_eq_ok, pure_eq_ok, Prod.exists, Prod.mk.injEq] at h ⊢
    obtain ⟨_, c₁, hcs, _, _, hrs, rfl, rfl, rfl⟩ := h
    obtain ⟨⟨_, -, hstep⟩, -⟩ := readOptionalSet_ok (by decide) hcs
    have hc₁ : c₁.limits.Within limits' := hstep.limits ▸ hc
    exact ⟨_, _, readOptionalSet_of_within (by decide) hc hcs, _, _,
      readOptionalSet_of_within (by decide) hc₁ hrs, rfl, rfl, rfl⟩
  | legacy =>
    simp only [readAids, bind_eq_ok, pure_eq_ok, Prod.exists, Prod.mk.injEq] at h ⊢
    obtain ⟨_, c₁, hcs, _, _, hrs, rfl, rfl, rfl⟩ := h
    have hc₁ : c₁.limits.Within limits' := (Cursor.setOf_eq_ok.mp hcs).1.limits ▸ hc
    exact ⟨_, _, Cursor.setOf_of_within hc hcs, _, _, Cursor.setOf_of_within hc₁ hrs, rfl, rfl,
      rfl⟩

theorem ofValue_of_within (hl : limits.Within limits') (h : ofValue limits g v = .ok d) :
    ofValue limits' g v = .ok d := by
  simp only [ofValue, ite_error_eq_ok, bind_eq_ok, pure_eq_ok, Prod.exists, Cursor.start_eq_ok,
    Cursor.word_eq_ok, Cursor.finish_eq_ok] at h ⊢
  obtain ⟨hseq, _, ⟨hinput, rfl⟩, version, c₁, hversion, digests, c₂, hdigests, as, has, content,
    c₃, hcontent, cs, rs, c₄, haids, ss, c₅, hsigners, -, hrest, certificates, hcertificates, crls,
    hcrls, signers, hss, rfl⟩ := h
  have hlimits₁ : c₁.limits = limits := hversion.limits
  have hlimits₂ : c₂.limits = limits := by rw [(Cursor.setOf_eq_ok.mp hdigests).1.limits, hlimits₁]
  obtain ⟨_, hcstep, -⟩ := ContentInfo.exists_read_of_step hcontent
  have hlimits₃ : c₃.limits = limits := by rw [hcstep.limits, hlimits₂]
  obtain ⟨⟨_, hastep⟩, -⟩ := readAids_ok haids
  have hlimits₄ : c₄.limits = limits := by rw [hastep.limits, hlimits₃]
  exact ⟨hseq, _, ⟨Nat.le_trans hinput hl.maxInput, rfl⟩, version, c₁.withLimits limits',
    hversion.withLimits limits', digests, c₂.withLimits limits',
    Cursor.setOf_of_within (hlimits₁.symm ▸ hl) hdigests, as, has, content, c₃.withLimits limits',
    ContentInfo.read_withLimits hcontent limits', cs, rs, c₄.withLimits limits',
    readAids_of_within (hlimits₃.symm ▸ hl) haids, ss, c₅.withLimits limits',
    Cursor.setOf_of_within (hlimits₄.symm ▸ hl) hsigners, (), hrest, certificates, hcertificates,
    crls, hcrls, signers, mapM_imp (fun _ _ _ => Signer.ofValue_of_within hl) hss, rfl⟩

theorem ofCertificates_of_within (hl : limits.Within limits') {info : ContentInfo}
    (h : ofCertificates limits g info v = .ok d) : ofCertificates limits' g info v = .ok d := by
  simp only [ofCertificates, ite_error_eq_ok, bind_eq_ok, pure_eq_ok, Cursor.start_eq_ok,
    Cursor.all_eq_ok] at h ⊢
  obtain ⟨hseq, _, ⟨hinput, rfl⟩, vs, ⟨hrest, hframed, hcount⟩, certificates, hcs, rfl⟩ := h
  exact ⟨hseq, _, ⟨Nat.le_trans hinput hl.maxInput, rfl⟩, vs,
    ⟨hrest, hframed, Nat.le_trans hcount hl.maxElements⟩, certificates, hcs, rfl⟩

theorem ofInfo_of_within (hl : limits.Within limits') {info : ContentInfo}
    (h : ofInfo limits g info = .ok d) : ofInfo limits' g info = .ok d := by
  obtain ⟨v, hv, ⟨htype, h⟩ | ⟨htype, h⟩ | ⟨htype, h⟩⟩ := ofInfo_eq_ok.mp h
  · exact ofInfo_eq_ok.mpr ⟨v, hv, .inl ⟨htype, ofValue_of_within hl h⟩⟩
  · exact ofInfo_eq_ok.mpr ⟨v, hv, .inr (.inl ⟨htype, ofValue_of_within hl h⟩)⟩
  · exact ofInfo_eq_ok.mpr ⟨v, hv, .inr (.inr ⟨htype, ofCertificates_of_within hl h⟩)⟩

theorem readIn_of_within (hl : limits.Within limits') (h : readIn b limits g = .ok d) :
    readIn b limits' g = .ok d := by
  obtain ⟨hinput, info, c, hread, hrest, h⟩ := readIn_eq_ok.mp h
  exact readIn_eq_ok.mpr ⟨Nat.le_trans hinput hl.maxInput, info, c.withLimits limits',
    ContentInfo.read_withLimits hread limits', hrest, ofInfo_of_within hl h⟩

/-! ## One grammar after the other -/

/-- The grammar that a bare sequence of certificates is read in, here `g'`, makes no difference but
to what is said of it. -/
theorem ofCertificates_withGrammar {info : ContentInfo} (g' : Grammar)
    (h : ofCertificates limits g info v = .ok d) :
    ofCertificates limits g' info v = .ok { d with grammar := g' } := by
  simp only [ofCertificates, ite_error_eq_ok, bind_eq_ok, pure_eq_ok] at h ⊢
  obtain ⟨hseq, c, hc, vs, hvs, certificates, hcs, rfl⟩ := h
  exact ⟨hseq, c, hc, vs, hvs, certificates, hcs, rfl⟩

/-- Only signed data proper (`Oid.signedData`) depends on the grammar around it. -/
theorem exists_ofInfo_current {info : ContentInfo} (htype : info.type ≠ Oid.signedData)
    (h : ofInfo limits .legacy info = .ok d) : ∃ d', ofInfo limits .current info = .ok d' := by
  obtain ⟨v, hv, ⟨hdata, -⟩ | ⟨hmistyped, h⟩ | ⟨hsequence, h⟩⟩ := ofInfo_eq_ok.mp h
  · exact absurd hdata htype
  · exact ⟨d, ofInfo_eq_ok.mpr ⟨v, hv, .inr (.inl ⟨hmistyped, h⟩)⟩⟩
  · exact ⟨_, ofInfo_eq_ok.mpr
      ⟨v, hv, .inr (.inr ⟨hsequence, ofCertificates_withGrammar .current h⟩)⟩⟩

/-- Where octets `b` are not signed data proper and are read in the `.legacy` grammar, the
`.current` one does not fail for the `limits`. -/
theorem exists_readIn_current {d' : SignedData}
    (htype : ContentInfo.leadingType? b ≠ some Oid.signedData)
    (hlegacy : readIn b limits .legacy = .ok d) (hcurrent : readIn b limits' .current = .ok d') :
    ∃ d'', readIn b limits .current = .ok d'' := by
  obtain ⟨hinput, info, c, hread, hrest, hinfo⟩ := readIn_eq_ok.mp hlegacy
  obtain ⟨-, info', c', hread', hrest', -⟩ := readIn_eq_ok.mp hcurrent
  have hread' : ContentInfo.read (Cursor.ofBuffer b limits) .current =
      .ok (info', c'.withLimits limits) := ContentInfo.read_withLimits hread' limits
  -- the content is the same in both grammars
  rw [ContentInfo.read_legacy_of_current hread'] at hread
  cases hread
  rw [ContentInfo.leadingType?_of_read hread', ne_eq, Option.some.injEq] at htype
  obtain ⟨d'', h⟩ := exists_ofInfo_current htype hinfo
  exact ⟨d'', readIn_eq_ok.mpr ⟨hinput, info, _, hread', hrest', h⟩⟩

/-- **Wider limits.** An attempt in the `.current` grammar that fails only for its `limits` does not
give way to one in the `.legacy` grammar, so the wider `limits'` change nothing about what is
read. -/
theorem readEither_of_within (hl : limits.Within limits')
    (h : readEither b limits .current .legacy = .ok d) :
    readEither b limits' .current .legacy = .ok d := by
  obtain hcurrent | ⟨⟨e, hcurrent⟩, hlegacy⟩ := readEither_eq_ok.mp h
  · exact readEither_eq_ok.mpr (.inl (readIn_of_within hl hcurrent))
  · have hlegacy' := readIn_of_within hl hlegacy
    refine readEither_eq_ok.mpr (.inr ⟨?_, hlegacy'⟩)
    cases hcurrent' : readIn b limits' .current with
    | error e' => exact ⟨e', rfl⟩
    | ok d' =>
      exfalso
      by_cases htype : ContentInfo.leadingType? b = some Oid.signedData
      · exact not_both_readIn htype hcurrent' hlegacy'
      · obtain ⟨d'', h⟩ := exists_readIn_current htype hlegacy hcurrent'
        rw [hcurrent] at h
        cases h

/-! ## Whole encodings -/

/-- **Limits hold and may be widened.** What is read under `limits` is no longer than they allow,
and neither is any list in it (`d.Fits limits`): digest algorithms, certificates, revocation lists,
signers, relative names and assertions of issuers, attributes and values of attributes. Under the
wider `limits'` the same data is read in the same grammar. -/
theorem limits_hold_and_widen (hl : limits.Within limits') (h : ofOctets b limits = .ok d) :
    b.length ≤ limits.maxInput ∧ d.Fits limits ∧ ofOctets b limits' = .ok d := by
  have hread := (readable_of_ofOctets h).1
  rw [ofOctets_eq_readEither] at h ⊢
  refine ⟨?_, hread.fits, readEither_of_within hl h⟩
  obtain h | ⟨-, h⟩ := readEither_eq_ok.mp h
  · exact (readIn_eq_ok.mp h).1
  · exact (readIn_eq_ok.mp h).1

/-- `limits_hold_and_widen` at `legacySample`, which is read under limits that leave no room, and
under the default ones as the same data. -/
theorem exists_limits_hold_and_widen_legacySample :
    (Limits.mk legacySample.length 2).Within .default ∧
    ∃ d, ofOctets legacySample ⟨legacySample.length, 2⟩ = .ok d ∧ d.grammar = .legacy ∧
      d.Fits ⟨legacySample.length, 2⟩ ∧ ofOctets legacySample .default = .ok d := by
  have hl : (Limits.mk legacySample.length 2).Within .default :=
    ⟨by decide +kernel, by decide⟩
  obtain ⟨d, hd, hgrammar⟩ := exists_of_map_toOption
    (x := ofOctets legacySample ⟨legacySample.length, 2⟩) (f := SignedData.grammar) (b := .legacy)
    (by decide +kernel)
  obtain ⟨-, hfits, hdefault⟩ := limits_hold_and_widen hl hd
  exact ⟨hl, d, hd, hgrammar, hfits, hdefault⟩

end SignedData

end Pkix
