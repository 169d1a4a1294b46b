import Pkix.Proofs.SignedData.Reencoding
import Pkix.Proofs.SignedData.Rereading
import Pkix.Proofs.SignedData.Soundness

/-!
# What verifies after writing

Signed data that is written and read again verifies as it did before, if the canonical order of
sets leads to the same certificates and to the same values of attributes.

* `SignedData.verify_eq_ok`: verifying is filtering the signers.
* `Signer.verify_of_alike`: what the answer of one signer depends on.
* `SignedData.verify_reencoded`: what verifies does not change where lookups do not.
-/

namespace Pkix

open Der

/-! ## One signer -/

namespace Signer

variable {s t : Signer}

/-- The first values of the attributes that count are the same in `s` and `t`. -/
def SameFirst (s t : Signer) : Prop :=
  ∀ set ∈ s.authenticated, ∀ set' ∈ t.authenticated,
    set'.first? Oid.contentType = set.first? Oid.contentType ∧
      set'.first? Oid.messageDigest = set.first? Oid.messageDigest

theorem signedOctets_of_alike (h : s.Alike t) (hfirst : s.SameFirst t) (digest : Digest)
    (type : Oid) (content : Bytes) :
    t.signedOctets digest type content = s.signedOctets digest type content := by
  have hencoded := h.authenticated
  unfold signedOctets
  cases hs : s.authenticated with
  | none =>
    rw [hs, Option.map_none, Option.map_eq_none_iff] at hencoded
    rw [hencoded]
  | some set =>
    rw [hs, Option.map_some] at hencoded
    obtain ⟨set', hset', hencoded⟩ := Option.map_eq_some_iff.mp hencoded
    obtain ⟨htype, hdigest⟩ := hfirst set hs set' hset'
    rw [hset']
    simp only [attributesMatch, AttributeSet.contentType, AttributeSet.messageDigest,
      AttributeSet.single_congr htype, AttributeSet.single_congr hdigest, hencoded]

theorem check_of_alike (h : s.Alike t) (digest : Digest) (signed : Bytes) (c : Certificate) :
    t.check digest signed c = s.check digest signed c := by
  rw [check, check, h.encryptionAlgorithm, h.signature]

/-- **One signer.** Signers with the same parts, `s` and `t`, give the same answer, with the same
complaint if it is one, where they refer to the same certificate. -/
theorem verify_of_alike {p q : SignedData} (h : s.Alike t) (hfirst : s.SameFirst t)
    (hcontent : q.content = p.content) (hc : s.certificate? q = s.certificate? p)
    (detached : Option Bytes) : t.verify q detached = s.verify p detached := by
  have hc : t.certificate? q = s.certificate? p := by
    rw [← hc, certificate?, certificate?, h.serial, h.issuer]
  simp only [verify, hcontent, hc, h.digestAlgorithm, signedOctets_of_alike h hfirst,
    check_of_alike h]

theorem verify_of_certificates {p : SignedData} {cs : List Certificate}
    (hc : s.certificate? { p with certificates := cs } = s.certificate? p)
    (detached : Option Bytes) :
    s.verify { p with certificates := cs } detached = s.verify p detached := by
  simp only [verify, hc]

/-- Writing the signer `s` keeps the first values of the attributes that count. -/
def Keeps (s : Signer) : Prop :=
  ∀ set ∈ s.authenticated, set.Keeps Oid.contentType ∧ set.Keeps Oid.messageDigest

theorem Readable.keeps {limits : Limits} (h : s.Readable limits) : s.Keeps :=
  fun set hset => ⟨.inl ⟨limits, h.authenticated set hset⟩, .inl ⟨limits, h.authenticated set hset⟩⟩

theorem sameFirst_of_readable {limits : Limits} (hs : s.Made) (hkeeps : s.Keeps)
    (hw : s.Writable) (h : s.Alike t) (ht : t.Readable limits) : s.SameFirst t := by
  intro set hset set' hset'
  have hencoded := h.authenticated
  rw [Option.mem_def.mp hset, Option.mem_def.mp hset', Option.map_some, Option.map_some,
    Option.some.injEq] at hencoded
  obtain ⟨_, hread⟩ := ht.authenticated set' hset'
  have hlen := hw.length_lt.1 set hset
  obtain ⟨htype, hdigest⟩ := hkeeps set hset
  exact ⟨AttributeSet.first?_of_ofValue (hs.authenticated set hset) htype hread hlen hencoded,
    AttributeSet.first?_of_ofValue (hs.authenticated set hset) hdigest hread hlen hencoded⟩

theorem attributesOctets_congr (tag : UInt8) {o o' : Option AttributeSet}
    (h : o'.map AttributeSet.encoded = o.map AttributeSet.encoded) :
    attributesOctets tag o' = attributesOctets tag o := by
  cases o with
  | none => rw [Option.map_eq_none_iff.mp h]
  | some set =>
    obtain ⟨set', rfl, hset⟩ := Option.map_eq_some_iff.mp h
    rw [attributesOctets, attributesOctets, AttributeSet.implicit, AttributeSet.implicit, hset]

/-- Alike signers, `s` and `t`, are written in the same way. -/
theorem octets_of_alike (h : s.Alike t) : t.octets = s.octets := by
  rw [octets, octets, attributesOctets_congr _ h.authenticated,
    attributesOctets_congr _ h.unauthenticated, h.version, h.issuer, h.serial, h.digestAlgorithm,
    h.encryptionAlgorithm, h.signature]

/-- The signer `t` that is read from the encoding of a signer `s` is written in the same way, gives
the same answer, and is the same if `s` was read. -/
structure Reread (p q : SignedData) (s t : Signer) : Prop where
  octets : t.octets = s.octets
  verify : ∀ detached, t.verify q detached = s.verify p detached
  eq : ∀ limits, s.Readable limits → t = s

theorem reread_of_ofValue {p q : SignedData} {limits : Limits} (hs : s.Made) (hw : s.Writable)
    (hv : s.value.Framed) (ht : Signer.ofValue limits .current s.value = .ok t)
    (hcontent : q.content = p.content) (hc : s.certificate? q = s.certificate? p)
    (hkeeps : s.Keeps) : Reread p q s t := by
  have hread := ((ofValue_current_eq_ok hv).mp ht).2
  have halike := alike_of_ofValue hs hv ht
  exact ⟨octets_of_alike halike,
    verify_of_alike halike (sameFirst_of_readable hs hkeeps hw halike hread) hcontent hc,
    fun _ h => halike.eq h hread hw⟩

end Signer

/-! ## Signed data -/

namespace Verification

/-- What verifying comes to where these `signers` verify. -/
def ofSigners (signers : List Signer) : Verification :=
  if signers.isEmpty then .noneVerified else .verified signers

theorem signers_ofSigners (ss : List Signer) : (ofSigners ss).signers = ss := by
  cases ss <;> rfl

theorem isVerified_ofSigners (ss : List Signer) : (ofSigners ss).isVerified = !ss.isEmpty := by
  cases ss <;> rfl

end Verification

namespace SignedData

/-- The signers of `d` that verify. -/
def accepted (d : SignedData) (detached : Option Bytes) : List Signer :=
  d.signers.filter fun s => (s.verify d detached).toOption == some true

/-- Verifying signed data `d` is filtering the signers, and an error if one of them is one. -/
theorem verify_eq_ok {d : SignedData} {detached : Option Bytes} {r : Verification} :
    d.verify detached = .ok r ↔
      (∀ s ∈ d.signers, ∃ b, s.verify d detached = .ok b) ∧
        .ofSigners (d.accepted detached) = r := by
  simp only [verify, bind_eq_ok, pure_eq_ok, filterM_eq_ok]
  constructor
  · rintro ⟨_, ⟨hall, rfl⟩, rfl⟩
    exact ⟨hall, rfl⟩
  · rintro ⟨hall, rfl⟩
    exact ⟨_, ⟨hall, rfl⟩, rfl⟩

/-- No two different certificates in `d` are what a signer refers to. -/
def Unambiguous (d : SignedData) : Prop :=
  ∀ s ∈ d.signers, ∀ c ∈ d.certificates, ∀ c' ∈ d.certificates,
    s.RefersTo c → s.RefersTo c' → c = c'

/-- The order of certificates, be it that of `cs`, only matters where a signer refers to more than
one. -/
theorem Unambiguous.certificate?_perm {d : SignedData} (h : d.Unambiguous) {cs : List Certificate}
    (hcs : cs.Perm d.certificates) :
    ∀ s ∈ d.signers, s.certificate? { d with certificates := cs } = s.certificate? d := by
  intro s hs
  refine find?_perm hcs fun c hc c' hc' href href' => ?_
  exact h s hs c (hcs.mem_iff.mp hc) c' (hcs.mem_iff.mp hc') (Signer.refersTo_iff.mp href)
    (Signer.refersTo_iff.mp href')

/-- Each signer of `p` is read again, in `q`, as one that gives the same answer. -/
theorem reread_of_ofOctets {p q : SignedData} {b : Bytes} (hmade : ∀ s ∈ p.signers, s.Made)
    (hb : p.octets = .ok b) (hq : ofOctets b .default = .ok q)
    (hkeeps : ∀ s ∈ p.signers, s.certificate? p.canonical = s.certificate? p ∧ s.Keeps) :
    List.Forall₂ (Signer.Reread p q) p.canonical.signers q.signers := by
  obtain ⟨hwrite, rfl⟩ := (octets_eq_ok fun s hs => (hmade s hs).hasSets).mp hb
  obtain ⟨hcontent, hcertificates, hframed, hsigners⟩ := canonical_of_ofOctets (by decide) hq
  rw [mapM_eq_ok, List.forall₂_map_left_iff] at hsigners
  refine ((List.forall₂_and_left _ _).mpr ⟨fun _ hs => hs, hsigners⟩).imp ?_
  rintro s t ⟨hs, ht⟩
  have hmem : s ∈ p.signers := (SetOrder.mem_sortBy _ _).mp hs
  obtain ⟨hc, hkeeps⟩ := hkeeps s hmem
  have hc : s.certificate? q = s.certificate? p := by
    rw [← hc, Signer.certificate?, Signer.certificate?, certificate?, certificate?, hcertificates]
  exact Signer.reread_of_ofValue (hmade s hmem) (hwrite s hmem) (hframed s hs) ht hcontent hc hkeeps

/-- Lists that correspond, `xs` and `ys`, have the same images under functions that agree where they
do. -/
theorem map_eq_of_forall₂ {α β γ : Type} {R : α → β → Prop} {f : α → γ} {g : β → γ} {xs : List α}
    {ys : List β} (h : List.Forall₂ R xs ys) (hfg : ∀ x y, R x y → g y = f x) :
    ys.map g = xs.map f := by
  induction h with
  | nil => rfl
  | cons hxy _ ih => rw [List.map_cons, List.map_cons, hfg _ _ hxy, ih]

theorem forall_mem_iff_of_forall₂ {α β : Type} {R : α → β → Prop} {P : α → Prop} {Q : β → Prop}
    {xs : List α} {ys : List β} (h : List.Forall₂ R xs ys) (hpq : ∀ x y, R x y → (Q y ↔ P x)) :
    (∀ y ∈ ys, Q y) ↔ ∀ x ∈ xs, P x := by
  induction h with
  | nil => simp
  | cons hxy _ ih => rw [List.forall_mem_cons, List.forall_mem_cons, hpq _ _ hxy, ih]

/-- What was accepted in `p` is read again, in canonical order. -/
theorem exists_reread_accepted {p q : SignedData}
    (h : List.Forall₂ (Signer.Reread p q) p.canonical.signers q.signers)
    (detached : Option Bytes) :
    ∃ ss, ss.Perm (p.accepted detached) ∧
      List.Forall₂ (Signer.Reread p q) ss (q.accepted detached) := by
  refine ⟨_, (SetOrder.sortBy_perm _ _).filter _, List.rel_filter ?_ h⟩
  intro s t hst
  show _ = true ↔ _ = true
  rw [hst.verify]

/-- Signed data `p` whose signers are read again, in `q`, as ones that give the same answer gives
the same answer. -/
theorem agree_of_reread {p q : SignedData}
    (h : List.Forall₂ (Signer.Reread p q) p.canonical.signers q.signers)
    (detached : Option Bytes) :
    ((∃ e, p.verify detached = .error e) ∧ ∃ e, q.verify detached = .error e) ∨
      ∃ r r', p.verify detached = .ok r ∧ q.verify detached = .ok r' ∧
        r'.isVerified = r.isVerified ∧
        (r'.signers.map Signer.octets).Perm (r.signers.map Signer.octets) ∧
        ((∀ s ∈ p.signers, ∃ limits, s.Readable limits) → r'.signers.Perm r.signers) := by
  have hall : (∀ t ∈ q.signers, ∃ b, t.verify q detached = .ok b) ↔
      ∀ s ∈ p.signers, ∃ b, s.verify p detached = .ok b := by
    rw [forall_mem_iff_of_forall₂ h fun s t hst => by rw [hst.verify]]
    exact forall_congr' fun s => imp_congr_left (SetOrder.mem_sortBy _ _)
  cases hp : p.verify detached with
  | error e =>
    cases hq : q.verify detached with
    | error e' => exact .inl ⟨⟨e, rfl⟩, e', rfl⟩
    | ok r' =>
      have := verify_eq_ok.mpr ⟨hall.mp (verify_eq_ok.mp hq).1, rfl⟩
      rw [hp] at this
      cases this
  | ok r =>
    obtain ⟨hanswers, rfl⟩ := verify_eq_ok.mp hp
    obtain ⟨ss, hperm, hreread⟩ := exists_reread_accepted h detached
    have hoctets : ((q.accepted detached).map Signer.octets).Perm
        ((p.accepted detached).map Signer.octets) := by
      rw [map_eq_of_forall₂ hreread fun _ _ hst => hst.octets]
      exact hperm.map _
    refine .inr ⟨_, _, rfl, verify_eq_ok.mpr ⟨hall.mpr hanswers, rfl⟩, ?_, ?_, ?_⟩
    · rw [Verification.isVerified_ofSigners, Verification.isVerified_ofSigners]
      simpa using hoctets.isEmpty_eq
    · rwa [Verification.signers_ofSigners, Verification.signers_ofSigners]
    · intro hread
      have hmem (s) (hs : s ∈ ss) : ∃ limits, s.Readable limits :=
        hread s (List.mem_of_mem_filter (hperm.mem_iff.mp hs))
      have heq := map_eq_of_forall₂ (f := id) (g := id)
        ((List.forall₂_and_left _ _).mpr ⟨hmem, hreread⟩) fun s t ⟨⟨_, hs⟩, hst⟩ => hst.eq _ hs
      rw [List.map_id, List.map_id] at heq
      rwa [Verification.signers_ofSigners, Verification.signers_ofSigners, heq]

/-- **Writing keeps what verifies.** Let signed data `p` be written and read again, as `q`. If each
signer finds the same certificate in canonical order, and attributes keep their first values, then
verifying is an error before and after, or has the same outcome: as many signers verify, with the
same encodings, and they are the same signers where `p` was read to begin with. The order of
certificates as such does not matter where no two different ones are what a signer refers to
(`p.Unambiguous`). -/
theorem verify_reencoded (p : SignedData) :
    (∀ b q, (∀ s ∈ p.signers, s.Made) → p.octets = .ok b → ofOctets b .default = .ok q →
      (∀ s ∈ p.signers, s.certificate? p.canonical = s.certificate? p ∧ s.Keeps) → ∀ detached,
        ((∃ e, p.verify detached = .error e) ∧ ∃ e, q.verify detached = .error e) ∨
          ∃ r r', p.verify detached = .ok r ∧ q.verify detached = .ok r' ∧
            r'.isVerified = r.isVerified ∧
            (r'.signers.map Signer.octets).Perm (r.signers.map Signer.octets) ∧
            ((∃ b limits, ofOctets b limits = .ok p) → r'.signers.Perm r.signers)) ∧
    (p.Unambiguous → ∀ cs, cs.Perm p.certificates →
      (∀ s ∈ p.signers, s.certificate? { p with certificates := cs } = s.certificate? p) ∧
        ∀ detached, { p with certificates := cs }.verify detached = p.verify detached) := by
  refine ⟨fun b q hmade hb hq hkeeps detached => ?_, fun hone cs hcs => ?_⟩
  · have hreread := reread_of_ofOctets hmade hb hq hkeeps
    refine (agree_of_reread hreread detached).imp_right ?_
    rintro ⟨r, r', hr, hr', hverified, hoctets, hsame⟩
    refine ⟨r, r', hr, hr', hverified, hoctets, ?_⟩
    rintro ⟨b', limits, hread⟩
    exact hsame fun s hs => ⟨limits, (readable_of_ofOctets hread).1.signers s hs⟩
  · have hfound := hone.certificate?_perm hcs
    refine ⟨hfound, fun detached => ?_⟩
    have hsigner (s) (hs : s ∈ p.signers) := s.verify_of_certificates (hfound s hs) detached
    rw [verify, verify, filterM_congr hsigner]

/-- The encodings that are written for `d`, field by field. -/
def fields (d : SignedData) : List (List Bytes) :=
  [[Write.word (d.version.getD 1)], d.digestAlgorithms.map Algorithm.octets, [d.content.octets],
    d.certificates.map Certificate.octets, d.crls.map Crl.octets,
    d.signers.map fun s => s.value.octets]

/-- The `fields` of `Signer.sampleSigned`. -/
def sampleFields (certificates : List Bytes) (attributes : Bytes) : List (List Bytes) :=
  [[Write.word 1], [(Algorithm.plain Oid.sha1).octets], [(ContentInfo.data [1, 2, 3]).octets],
    certificates, [], [Signer.sampleSigner attributes]]

/-- Data `d` with the fields of the sample is written with its certificates in canonical order,
`cs'`. -/
theorem encoding_sampleSigned {d : SignedData} {cs cs' : List Bytes} {attributes : Bytes}
    (h : d.fields = sampleFields cs attributes) (hne : cs ≠ []) (hsort : SetOrder.sort cs = cs') :
    d.encoding = Signer.sampleSigned cs' attributes := by
  simp only [fields, sampleFields, List.cons.injEq, and_true] at h
  obtain ⟨hversion, hdigests, hcontent, hcertificates, hcrls, hsigners⟩ := h
  simp only [encoding, info, body, hversion, hdigests, hcontent, hcertificates, hcrls, hsigners,
    optionalSet, Write.setOf, hsort]
  simp [SetOrder.sort, Signer.sampleSigned, hne]

/-- Signed data with the certificate of the signer, and after it one of another issuer that comes
first in canonical order. -/
def unambiguousSample : Bytes :=
  Signer.sampleSigned [Signer.sampleCertificate Signer.sampleModulus, plainCertificate 2]
    Signer.sampleAttributes

/-- Where no signer of `d` refers to two of the certificates, `d` is `Unambiguous`. -/
theorem unambiguous_of_length_le {d : SignedData} (h : ∀ s ∈ d.signers,
    (d.certificates.filter (·.identifiedBy s.serial s.issuer)).length ≤ 1) : d.Unambiguous := by
  intro s hs c hc c' hc' href href'
  have hmem {c} (hc : c ∈ d.certificates) (href : s.RefersTo c) :
      c ∈ d.certificates.filter (·.identifiedBy s.serial s.issuer) :=
    List.mem_filter.mpr ⟨hc, Signer.refersTo_iff.mpr href⟩
  have hle := Nat.le_antisymm (h s hs) (List.length_pos_of_mem (hmem hc href))
  obtain ⟨found, hfound⟩ := List.length_eq_one_iff.mp hle
  rw [hfound] at hmem
  rw [List.mem_singleton.mp (hmem hc href), List.mem_singleton.mp (hmem hc' href')]

/-- `verify_reencoded` at `unambiguousSample`, whose certificates are out of order. -/
theorem exists_verify_reencoded_sampleSigned :
    ∃ p b q, (∃ b limits, ofOctets b limits = .ok p) ∧ (∀ s ∈ p.signers, s.Made) ∧
      p.octets = .ok b ∧ ofOctets b .default = .ok q ∧
      (∀ s ∈ p.signers, s.certificate? p.canonical = s.certificate? p ∧ s.Keeps) ∧
      p.Unambiguous ∧ p.certificates.reverse.Perm p.certificates ∧
      (∃ r, p.verify none = .ok r ∧ r.isVerified = true) ∧
      (((∃ e, p.verify none = .error e) ∧ ∃ e, q.verify none = .error e) ∨
        ∃ r r', p.verify none = .ok r ∧ q.verify none = .ok r' ∧
          r'.isVerified = r.isVerified ∧
          (r'.signers.map Signer.octets).Perm (r.signers.map Signer.octets) ∧
          ((∃ b limits, ofOctets b limits = .ok p) → r'.signers.Perm r.signers)) ∧
      { p with certificates := p.certificates.reverse }.verify none = p.verify none := by
  obtain ⟨p, hp, hfacts⟩ := exists_of_map_toOption (x := ofOctets unambiguousSample .default)
    (f := fun p => (p.fields, (p.verify none).toOption.map Verification.isVerified,
      p.signers.all fun s =>
        (p.certificates.filter (·.identifiedBy s.serial s.issuer)).length ≤ 1))
    (b := (sampleFields [Signer.sampleCertificate Signer.sampleModulus, plainCertificate 2]
      Signer.sampleAttributes, some true, true)) (by decide +kernel)
  simp only [Prod.mk.injEq] at hfacts
  obtain ⟨hfields, hverified, hone⟩ := hfacts
  obtain ⟨r, hr, hverified⟩ := exists_of_map_toOption hverified
  have hone : p.Unambiguous := unambiguous_of_length_le (by simpa using hone)
  have hencoding := encoding_sampleSigned hfields (List.cons_ne_nil _ _)
    (SetOrder.sort_pair (by decide +kernel))
  obtain ⟨hread, hbounded⟩ := readable_of_ofOctets hp
  have hoctets := (octets_eq_ok hread.hasSets).mpr ⟨writable_of_bounded hbounded, rfl⟩
  have hq : ofOctets p.encoding .default = .ok p.canonical :=
    ofOctets_encoding hread (by decide) (by rw [hencoding]; decide +kernel)
  have hmade (s) (hs : s ∈ p.signers) : s.Made := (hread.signers s hs).made
  have hkeeps (s) (hs : s ∈ p.signers) :
      s.certificate? p.canonical = s.certificate? p ∧ s.Keeps :=
    ⟨hone.certificate?_perm (SetOrder.sortBy_perm _ _) s hs, (hread.signers s hs).keeps⟩
  have hreverse := p.certificates.reverse_perm
  exact ⟨p, p.encoding, p.canonical, ⟨_, _, hp⟩, hmade, hoctets, hq, hkeeps, hone, hreverse,
    ⟨r, hr, hverified⟩, (verify_reencoded p).1 _ _ hmade hoctets hq hkeeps none,
    ((verify_reencoded p).2 hone _ hreverse).2 none⟩

theorem verify_eq_noneVerified {d : SignedData} {detached : Option Bytes}
    (h : (d.verify detached).toOption.map Verification.isVerified = some false) :
    d.verify detached = .ok .noneVerified := by
  obtain ⟨r, hr, hverified⟩ := exists_of_map_toOption h
  cases r with
  | verified => cases hverified
  | noneVerified => exact hr

/-- The certificate of the signer, and one with the same serial number and issuer but another key,
which comes first in canonical order. -/
def ambiguousCertificates : List Bytes :=
  [Signer.sampleCertificate Signer.sampleModulus,
    Signer.sampleCertificate (Signer.sampleModulus - 2)]

/-- Where a signer refers to two certificates (`ambiguousCertificates`), the order decides which one
counts: what verified is written, and what is read does not verify any more. -/
theorem exists_lookup_changed :
    ∃ p b q r, ofOctets (Signer.sampleSigned ambiguousCertificates Signer.sampleAttributes)
        .default = .ok p ∧ p.octets = .ok b ∧ ofOctets b .default = .ok q ∧
      p.verify none = .ok r ∧ r.isVerified = true ∧ q.verify none = .ok .noneVerified ∧
      { p with certificates := p.certificates.reverse }.verify none = .ok .noneVerified := by
  obtain ⟨p, hp, hfacts⟩ := exists_of_map_toOption
    (x := ofOctets (Signer.sampleSigned ambiguousCertificates Signer.sampleAttributes) .default)
    (f := fun p => (p.fields, (p.verify none).toOption.map Verification.isVerified,
      ({ p with certificates := p.certificates.reverse }.verify none).toOption.map
        Verification.isVerified))
    (b := (sampleFields ambiguousCertificates Signer.sampleAttributes, some true, some false))
    (by decide +kernel)
  obtain ⟨q, hq, hchanged⟩ := exists_of_map_toOption
    (x := ofOctets (Signer.sampleSigned ambiguousCertificates.reverse Signer.sampleAttributes)
      .default)
    (f := fun q => (q.verify none).toOption.map Verification.isVerified)
    (b := some false) (by decide +kernel)
  simp only [Prod.mk.injEq] at hfacts
  obtain ⟨hfields, hverified, hreversed⟩ := hfacts
  obtain ⟨r, hr, hverified⟩ := exists_of_map_toOption hverified
  have hencoding := encoding_sampleSigned hfields
    (List.cons_ne_nil _ _) (SetOrder.sort_pair (by decide +kernel))
  obtain ⟨hread, hbounded⟩ := readable_of_ofOctets hp
  have hoctets := (octets_eq_ok hread.hasSets).mpr ⟨writable_of_bounded hbounded, hencoding⟩
  exact ⟨p, _, q, r, hp, hoctets, hq, hr, hverified, verify_eq_noneVerified hchanged,
    verify_eq_noneVerified hreversed⟩

/-- The data `d` with other attributes, `set`, in place of those that the signers sign. -/
def withAttributes (d : SignedData) (set : AttributeSet) : SignedData :=
  { d with signers := d.signers.map fun s => { s with authenticated := some set } }

/-- Attributes that are made from their parts (`AttributeSet.new as`) can be put into the sample. -/
theorem octets_withAttributes {b c attributes : Bytes} {as : List Attribute} {set : AttributeSet}
    {d : SignedData} (hd : ofOctets b .default = .ok d) (hset : AttributeSet.new as = .ok set)
    (hfields : (d.withAttributes set).fields = sampleFields [c] attributes)
    (hlen : set.encoded.length ≤ Limits.default.maxInput) :
    (∀ s ∈ (d.withAttributes set).signers, s.Made) ∧
      (d.withAttributes set).octets = .ok (Signer.sampleSigned [c] attributes) := by
  obtain ⟨hread, hbounded⟩ := readable_of_ofOctets hd
  have hmade : ∀ s ∈ (d.withAttributes set).signers, s.Made ∧ s.Writable := by
    refine List.forall_mem_map.mpr fun s hs => ⟨⟨⟨_, (hread.signers s hs).issuer⟩, ?_, ?_⟩, ?_⟩
    · rintro _ ⟨⟩
      exact .inl ⟨as, hset⟩
    · exact fun set hset => .inr ⟨_, (hread.signers s hs).unauthenticated set hset⟩
    · refine ⟨?_, (writable_of_bounded hbounded s hs).2⟩
      rintro _ ⟨⟩
      exact hlen
  refine ⟨fun s hs => (hmade s hs).1, ?_⟩
  refine (octets_eq_ok fun s hs => (hmade s hs).1.hasSets).mpr ⟨fun s hs => (hmade s hs).2, ?_⟩
  exact encoding_sampleSigned hfields (List.cons_ne_nil _ _) (by simp [SetOrder.sort])

/-- A content type with a second value that comes first in canonical order. -/
def twoTypes : Attribute :=
  ⟨Oid.contentType, [Value.ofOctet Tag.oid Oid.data.content, Value.ofOctet Tag.boolean [0xff]]⟩

/-- The encoding of `twoTypes`. -/
def twoTypesOctets : Bytes :=
  Write.element Tag.sequence (Write.oid Oid.contentType ++
    Write.element Tag.set (Write.boolean true ++ Write.oid Oid.data))

theorem octets_twoTypes : twoTypes.octets = twoTypesOctets := by
  have hcmp : SetOrder.cmp (Value.ofOctet Tag.oid Oid.data.content).octets
      (Value.ofOctet Tag.boolean [0xff]).octets = .gt := by decide +kernel
  have hvalues : (Value.ofOctet Tag.boolean [0xff]).octets ++
      (Value.ofOctet Tag.oid Oid.data.content).octets =
        Write.boolean true ++ Write.oid Oid.data := by decide +kernel
  simp [Attribute.octets, twoTypes, Write.setOf, SetOrder.sort_pair hcmp, hvalues, twoTypesOctets]

/-- The attributes of the sample out of order and with `twoTypes`. -/
def twoTypesSet : AttributeSet where
  attributes := [Signer.sampleDigest, twoTypes]
  encoded := Write.element Tag.set (twoTypesOctets ++ Signer.sampleDigest.octets)
  distinct := by decide +kernel

theorem new_twoTypesSet : AttributeSet.new twoTypesSet.attributes = .ok twoTypesSet := by
  refine AttributeSet.new_eq_ok.mpr ⟨rfl, ?_⟩
  have hcmp : SetOrder.cmp Signer.sampleDigest.octets twoTypesOctets = .gt := by decide +kernel
  simp [twoTypesSet, Write.setOf, octets_twoTypes, SetOrder.sort_pair hcmp]

/-- Where the first value of an attribute is not the first in canonical order, as in `twoTypesSet`,
what is read is checked with another value: what could be verified is an error after writing. -/
theorem exists_value_changed :
    ∃ (p : SignedData) (b : Bytes) (q : SignedData), (∀ s ∈ p.signers, s.Made) ∧
      p.octets = .ok b ∧ ofOctets b .default = .ok q ∧ p.verify none = .ok .noneVerified ∧
      ∃ e, q.verify none = .error e := by
  obtain ⟨d, hd, hfacts⟩ := exists_of_map_toOption
    (x := ofOctets (Signer.sampleSigned [plainCertificate 2] Signer.sampleAttributes) .default)
    (f := fun d => ((d.withAttributes twoTypesSet).fields,
      ((d.withAttributes twoTypesSet).verify none).toOption.map Verification.isVerified))
    (b := (sampleFields [plainCertificate 2] (twoTypesOctets ++ Signer.sampleDigest.octets),
      some false)) (by decide +kernel)
  obtain ⟨q, hq, herror⟩ := exists_of_map_toOption
    (x := ofOctets (Signer.sampleSigned [plainCertificate 2]
      (twoTypesOctets ++ Signer.sampleDigest.octets)) .default)
    (f := fun q => (q.verify none).toOption.isSome) (b := false) (by decide +kernel)
  obtain ⟨hfields, hverify⟩ := Prod.mk.inj hfacts
  obtain ⟨hmade, hoctets⟩ := octets_withAttributes hd new_twoTypesSet hfields (by decide +kernel)
  refine ⟨_, _, q, hmade, hoctets, hq, verify_eq_noneVerified hverify, ?_⟩
  cases h : q.verify none with
  | error e => exact ⟨e, rfl⟩
  | ok r =>
    rw [h] at herror
    cases herror

/-- The attributes of the sample out of order. -/
def reorderedSet : AttributeSet where
  attributes := [Signer.sampleDigest, Attribute.contentType Oid.data]
  encoded := Write.element Tag.set Signer.sampleAttributes
  distinct := by decide +kernel

theorem new_reorderedSet : AttributeSet.new reorderedSet.attributes = .ok reorderedSet := by
  refine AttributeSet.new_eq_ok.mpr ⟨rfl, ?_⟩
  have hcmp : SetOrder.cmp Signer.sampleDigest.octets
      (Attribute.contentType Oid.data).octets = .gt := by decide +kernel
  simp [reorderedSet, Write.setOf, SetOrder.sort_pair hcmp, Signer.sampleAttributes]

/-- The identifiers of the attributes of the signers `ss`, in their order. -/
def attributeIds (ss : List Signer) : List (List Oid) :=
  ss.map fun s => s.authenticated.elim [] fun set => set.attributes.map Attribute.id

/-- Where attributes are not in canonical order, as in `reorderedSet`, the signers that verify after
writing are others by the order of their attributes. -/
theorem exists_signers_changed :
    ∃ (p : SignedData) (b : Bytes) (q : SignedData) (r r' : Verification),
      (∀ s ∈ p.signers, s.Made) ∧ p.octets = .ok b ∧ ofOctets b .default = .ok q ∧
      p.verify none = .ok r ∧ q.verify none = .ok r' ∧ ¬r'.signers.Perm r.signers := by
  obtain ⟨d, hd, hfacts⟩ := exists_of_map_toOption
    (x := ofOctets (Signer.sampleSigned [Signer.sampleCertificate Signer.sampleModulus]
      Signer.sampleAttributes) .default)
    (f := fun d => ((d.withAttributes reorderedSet).fields,
      ((d.withAttributes reorderedSet).verify none).toOption.map (attributeIds ·.signers),
      (d.verify none).toOption.map (attributeIds ·.signers)))
    (b := (sampleFields [Signer.sampleCertificate Signer.sampleModulus] Signer.sampleAttributes,
      some [[Oid.messageDigest, Oid.contentType]], some [[Oid.contentType, Oid.messageDigest]]))
    (by decide +kernel)
  simp only [Prod.mk.injEq] at hfacts
  obtain ⟨hfields, hverify, hverify'⟩ := hfacts
  obtain ⟨r, hr, hids⟩ := exists_of_map_toOption hverify
  obtain ⟨r', hr', hids'⟩ := exists_of_map_toOption hverify'
  obtain ⟨hmade, hoctets⟩ := octets_withAttributes hd new_reorderedSet hfields (by decide +kernel)
  refine ⟨_, _, d, r, r', hmade, hoctets, hd, hr, hr', fun hperm => ?_⟩
  have hperm : (attributeIds r'.signers).Perm (attributeIds r.signers) := hperm.map _
  rw [hids, hids', List.singleton_perm_singleton] at hperm
  revert hperm
  decide

/-- Writing changes what verifies where the order of sets matters: which certificate a signer finds
first (`ambiguousCertificates`), which value an attribute has first, and which attribute a signer
lists first. -/
theorem verify_depends_on_order :
    (∃ p b q r, ofOctets (Signer.sampleSigned ambiguousCertificates Signer.sampleAttributes)
        .default = .ok p ∧ p.octets = .ok b ∧ ofOctets b .default = .ok q ∧
      p.verify none = .ok r ∧ r.isVerified = true ∧ q.verify none = .ok .noneVerified ∧
      { p with certificates := p.certificates.reverse }.verify none = .ok .noneVerified) ∧
    (∃ (p : SignedData) (b : Bytes) (q : SignedData), (∀ s ∈ p.signers, s.Made) ∧
      p.octets = .ok b ∧ ofOctets b .default = .ok q ∧ p.verify none = .ok .noneVerified ∧
      ∃ e, q.verify none = .error e) ∧
    ∃ (p : SignedData) (b : Bytes) (q : SignedData) (r r' : Verification),
      (∀ s ∈ p.signers, s.Made) ∧ p.octets = .ok b ∧ ofOctets b .default = .ok q ∧
      p.verify none = .ok r ∧ q.verify none = .ok r' ∧ ¬r'.signers.Perm r.signers :=
  ⟨exists_lookup_changed, exists_value_changed, exists_signers_changed⟩

end SignedData

end Pkix
