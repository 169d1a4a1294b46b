import Pkix.SignedData.Verify
import Pkix.Proofs.Der.Elements

/-!
# What a signature that verifies vouches for

* `Signer.Covers`: the octets that a signature over a content has to be over.
* `Signer.RefersTo`, `Certificate.MaySign`: which certificates a signer may be checked with.
* `Signer.verify_eq_true`: a signer verifies exactly where the first certificate that it refers to
  allows signatures and has a key that fits the signature of the right octets.
-/

namespace Pkix

open Der

/-! ## Algorithms -/

theorem Digest.ofAlgorithm_eq_ok {a : Algorithm} {digest : Digest} :
    Digest.ofAlgorithm a = .ok digest ↔ digest.oid = a.id := by
  unfold Digest.ofAlgorithm
  constructor
  · intro h
    split at h
    · rename_i found hfound
      cases h
      simpa using List.find?_some hfound
    · cases h
  · intro h
    have hfound : Digest.ofOid? digest.oid = some digest := by cases digest <;> decide
    rw [← h, hfound]

theorem Scheme.mem_of_ofAlgorithm {a : Algorithm} {scheme : Scheme}
    (h : Scheme.ofAlgorithm a = .ok scheme) : a.id ∈ scheme.oids := by
  unfold Scheme.ofAlgorithm at h
  split at h
  · rename_i s hs
    cases h
    simpa using List.find?_some hs
  · cases h

/-! ## Attributes -/

namespace AttributeSet

/-- The attribute `id` has the value `v`, as its first one. -/
def Says (set : AttributeSet) (id : Oid) (v : Value) : Prop :=
  ∃ a ∈ set.attributes, a.id = id ∧ a.values.head? = some v

variable {set : AttributeSet}

theorem single_eq_some {α : Type} {id : Oid} {read : Value → Except Error α} {x : α}
    (h : set.single id read = .ok (some x)) : ∃ v, set.Says id v ∧ read v = .ok x := by
  unfold single at h
  split at h
  · cases h
  · rename_i v hv
    simp only [bind_eq_ok, pure_eq_ok, Option.some.injEq] at h
    obtain ⟨_, hread, rfl⟩ := h
    obtain ⟨a, ha, hhead⟩ := Option.bind_eq_some_iff.mp hv
    refine ⟨v, ⟨a, List.mem_of_find?_eq_some ha, ?_, hhead⟩, hread⟩
    simpa using List.find?_some ha

theorem says_of_contentType {type : Oid} (h : set.contentType = .ok (some type)) :
    set.Says Oid.contentType (Value.ofOctet Tag.oid type.content) := by
  obtain ⟨v, hv, hread⟩ := single_eq_some h
  rwa [← Value.oid_eq_ok.mp hread]

theorem says_of_messageDigest {b : Bytes} (h : set.messageDigest = .ok (some b)) :
    set.Says Oid.messageDigest (Value.ofOctet Tag.octetString b) := by
  obtain ⟨v, hv, hread⟩ := single_eq_some h
  rwa [← Value.octetString_eq_ok.mp hread]

end AttributeSet

theorem ContentInfo.bytes?_eq_some {info : ContentInfo} {b : Bytes} :
    info.bytes? = some b ↔ info.content = some (Value.ofOctet Tag.octetString b) := by
  simp only [ContentInfo.bytes?, Option.bind_eq_some_iff, toOption_eq_some,
    Value.octetString_eq_ok, exists_eq_right]

/-! ## Certificates -/

/-- A certificate `c` that speaks of uses of its key allows signatures. -/
def Certificate.MaySign (c : Certificate) : Prop :=
  c.keyUsage? = .ok none ∨
    ∃ critical bits, c.keyUsage? = .ok (some ⟨critical, .keyUsage bits⟩) ∧
      (KeyUse.get bits .digitalSignature = true ∨ KeyUse.get bits .nonRepudiation = true)

theorem Content.exists_bits_of_decodeKeyUsage {b : Bytes} {content : Content}
    (h : Content.decodeKeyUsage b = .ok content) : ∃ bits, content = .keyUsage bits := by
  obtain ⟨v, -, h⟩ := bind_eq_ok.mp h
  dsimp only at h
  split at h
  all_goals
    obtain ⟨w, -, h⟩ := bind_eq_ok.mp h
    obtain ⟨s, -, h⟩ := bind_eq_ok.mp h
    cases h
    exact ⟨_, rfl⟩

/-- The uses of a key are a list of `bits`. -/
theorem Certificate.exists_bits_of_keyUsage? {c : Certificate} {t : TypedExtension}
    (h : c.keyUsage? = .ok (some t)) : ∃ critical bits, t = ⟨critical, .keyUsage bits⟩ := by
  unfold Certificate.keyUsage? Certificate.typedExtension? at h
  split at h
  · cases h
  · rename_i e he
    have hid : e.id = Oid.keyUsage := by simpa using List.find?_some he
    simp only [bind_eq_ok, pure_eq_ok, TypedExtension.ofExtension, Content.decode, if_pos hid,
      Option.some.injEq] at h
    obtain ⟨_, ⟨_, hcontent, rfl⟩, rfl⟩ := h
    obtain ⟨bits, rfl⟩ := Content.exists_bits_of_decodeKeyUsage hcontent
    exact ⟨_, bits, rfl⟩

namespace Signer

/-- The certificate `c` has the serial number of the signer `s`, and an issuer that is the same. -/
def RefersTo (s : Signer) (c : Certificate) : Prop :=
  c.serial = s.serial ∧ ∃ issuer, c.issuer = .ok issuer ∧ (issuer == s.issuer) = true

/-- The octets `signed` that a signature over a `content` has to be over: the content itself, or
attributes that name its `type` and its digest. -/
def Covers (s : Signer) (digest : Digest) (type : Oid) (content signed : Bytes) : Prop :=
  match s.authenticated with
  | none => signed = content
  | some set => signed = set.encoded ∧
      set.Says Oid.contentType (Value.ofOctet Tag.oid type.content) ∧
      set.Says Oid.messageDigest (Value.ofOctet Tag.octetString (digest.hash content))

theorem refersTo_iff {s : Signer} {c : Certificate} :
    c.identifiedBy s.serial s.issuer = true ↔ s.RefersTo c := by
  unfold Certificate.identifiedBy RefersTo
  cases c.issuer <;> simp

theorem certificate?_refersTo {s : Signer} {d : SignedData} {c : Certificate}
    (h : s.certificate? d = some c) : c ∈ d.certificates ∧ s.RefersTo c := by
  unfold certificate? SignedData.certificate? at h
  have hrefers := List.find?_some h
  exact ⟨List.mem_of_find?_eq_some h, refersTo_iff.mp hrefers⟩

theorem attributesMatch_eq_true {set : AttributeSet} {digest : Digest} {type : Oid}
    {content : Bytes} (h : attributesMatch set digest type content = .ok true) :
    set.contentType = .ok (some type) ∧ set.messageDigest = .ok (some (digest.hash content)) := by
  simp only [attributesMatch, bind_eq_ok] at h
  obtain ⟨found, htype, h⟩ := h
  split at h
  · cases h
  · rename_i heq
    rw [ne_eq, Decidable.not_not] at heq
    simp only [bind_eq_ok, pure_eq_ok, beq_iff_eq] at h
    obtain ⟨_, hdigest, rfl⟩ := h
    exact ⟨heq ▸ htype, hdigest⟩

theorem covers_of_signedOctets {s : Signer} {digest : Digest} {type : Oid}
    {content signed : Bytes} (h : s.signedOctets digest type content = .ok (some signed)) :
    s.Covers digest type content signed := by
  unfold signedOctets at h
  unfold Covers
  cases hset : s.authenticated with
  | none =>
    rw [hset] at h
    cases h
    rfl
  | some set =>
    simp only [hset, bind_eq_ok, pure_eq_ok, Option.ite_none_right_eq_some,
      Option.some.injEq] at h
    obtain ⟨_, hmatch, rfl, rfl⟩ := h
    obtain ⟨htype, hdigest⟩ := attributesMatch_eq_true hmatch
    exact ⟨rfl, AttributeSet.says_of_contentType htype, AttributeSet.says_of_messageDigest hdigest⟩

theorem maySign_eq_true {c : Certificate} : maySign c = .ok true ↔ c.MaySign := by
  unfold maySign Certificate.MaySign
  cases h : c.keyUsage? with
  | error e => simp [bind, Except.bind]
  | ok o =>
    cases o with
    | none => simp [bind, Except.bind, pure, Except.pure]
    | some t =>
      obtain ⟨critical, bits, rfl⟩ := Certificate.exists_bits_of_keyUsage? h
      simp [bind, Except.bind, pure, Except.pure]

theorem check_eq_true {s : Signer} {digest : Digest} {signed : Bytes} {c : Certificate} :
    s.check digest signed c = .ok true ↔
      c.MaySign ∧ ∃ scheme key, Scheme.ofAlgorithm s.encryptionAlgorithm = .ok scheme ∧
        c.publicKey = .ok key ∧ key.verify scheme digest signed s.signature = .ok true := by
  simp only [check, bind_eq_ok, ← maySign_eq_true]
  constructor
  · rintro ⟨b, hmay, h⟩
    rw [ite_error_eq_ok] at h
    obtain ⟨rfl, h⟩ := h
    obtain ⟨scheme, hscheme, key, hkey, hverify⟩ := by simpa only [bind_eq_ok] using h
    exact ⟨hmay, scheme, key, hscheme, hkey, hverify⟩
  · rintro ⟨hmay, scheme, key, hscheme, hkey, hverify⟩
    refine ⟨true, hmay, ite_error_eq_ok.mpr ⟨rfl, ?_⟩⟩
    simp only [bind_eq_ok]
    exact ⟨scheme, hscheme, key, hkey, hverify⟩

/-- A signer `s` verifies exactly where each step of checking it gives an answer and the last one
says yes. -/
theorem verify_eq_true {s : Signer} {d : SignedData} {detached : Option Bytes} :
    s.verify d detached = .ok true ↔
      ∃ content digest signed c, detached.or d.content.bytes? = some content ∧
        Digest.ofAlgorithm s.digestAlgorithm = .ok digest ∧
        s.signedOctets digest d.content.type content = .ok (some signed) ∧
        s.certificate? d = some c ∧ s.check digest signed c = .ok true := by
  unfold verify
  cases detached.or d.content.bytes? with
  | none => simp [pure, Except.pure]
  | some content =>
    simp only [bind_eq_ok, Option.some.injEq]
    constructor
    · rintro ⟨digest, hdigest, o, hsigned, h⟩
      cases o with
      | none => cases h
      | some signed =>
        cases hc : s.certificate? d with
        | none =>
          rw [hc] at h
          cases h
        | some c =>
          rw [hc] at h
          exact ⟨content, digest, signed, c, rfl, hdigest, hsigned, rfl, h⟩
    · rintro ⟨_, digest, signed, c, rfl, hdigest, hsigned, hc, h⟩
      refine ⟨digest, hdigest, some signed, hsigned, ?_⟩
      rw [hc]
      exact h

/-- Attributes over which a signature may stand name one `digest`. -/
theorem messageDigest_of_signedOctets {s : Signer} {set : AttributeSet} {digest : Digest}
    {type : Oid} {content signed : Bytes} (hset : s.authenticated = some set)
    (h : s.signedOctets digest type content = .ok (some signed)) :
    set.messageDigest = .ok (some (digest.hash content)) := by
  simp only [signedOctets, hset, bind_eq_ok, pure_eq_ok, Option.ite_none_right_eq_some] at h
  obtain ⟨_, hmatch, rfl, -⟩ := h
  exact (attributesMatch_eq_true hmatch).2

/-- **Soundness.** A signer `s` that verifies is one of an existing `content`. Its `digest` is
supported; among the certificates is one, `c`, that it refers to, that may sign and whose `key`
accepts the signature under the scheme and the digest of `s`, of the content itself or of attributes
that name the type of the content and its digest. So a signer with attributes vouches for one digest
only, whatever it is verified against. -/
theorem verify_sound (s : Signer) :
    (∀ d detached, s.verify d detached = .ok true →
      ∃ content digest scheme c key signed,
        (detached = some content ∨
          detached = none ∧ d.content.content = some (Value.ofOctet Tag.octetString content)) ∧
        digest.oid = s.digestAlgorithm.id ∧ s.encryptionAlgorithm.id ∈ scheme.oids ∧
        c ∈ d.certificates ∧ s.RefersTo c ∧ c.MaySign ∧ c.publicKey = .ok key ∧
        key.verify scheme digest signed s.signature = .ok true ∧
        s.Covers digest d.content.type content signed) ∧
    (∀ d₁ d₂ detached₁ detached₂, s.authenticated ≠ none →
      s.verify d₁ detached₁ = .ok true → s.verify d₂ detached₂ = .ok true →
      ∃ (digest : Digest) (content₁ content₂ : Bytes), digest.oid = s.digestAlgorithm.id ∧
        detached₁.or d₁.content.bytes? = some content₁ ∧
        detached₂.or d₂.content.bytes? = some content₂ ∧
        digest.hash content₁ = digest.hash content₂) := by
  refine ⟨fun d detached h => ?_, fun d₁ d₂ detached₁ detached₂ hattributes h₁ h₂ => ?_⟩
  · obtain ⟨content, digest, signed, c, hcontent, hdigest, hsigned, hc, hcheck⟩ :=
      verify_eq_true.mp h
    obtain ⟨hmay, scheme, key, hscheme, hkey, hverify⟩ := check_eq_true.mp hcheck
    obtain ⟨hmem, hrefers⟩ := certificate?_refersTo hc
    refine ⟨content, digest, scheme, c, key, signed, ?_, Digest.ofAlgorithm_eq_ok.mp hdigest,
      Scheme.mem_of_ofAlgorithm hscheme, hmem, hrefers, hmay, hkey, hverify,
      covers_of_signedOctets hsigned⟩
    cases detached with
    | none => exact .inr ⟨rfl, ContentInfo.bytes?_eq_some.mp hcontent⟩
    | some b => exact .inl (by simpa using hcontent)
  · obtain ⟨content₁, digest, signed₁, -, hcontent₁, hdigest, hsigned₁, -⟩ := verify_eq_true.mp h₁
    obtain ⟨content₂, digest₂, signed₂, -, hcontent₂, hdigest₂, hsigned₂, -⟩ := verify_eq_true.mp h₂
    rw [hdigest] at hdigest₂
    cases hdigest₂
    refine ⟨digest, content₁, content₂, Digest.ofAlgorithm_eq_ok.mp hdigest, hcontent₁, hcontent₂,
      ?_⟩
    obtain ⟨set, hset⟩ := Option.ne_none_iff_exists'.mp hattributes
    have hone := messageDigest_of_signedOctets hset hsigned₁
    rw [messageDigest_of_signedOctets hset hsigned₂] at hone
    exact (Option.some.inj (Except.ok.inj hone)).symm

/-- A directory name. -/
def sampleName : Bytes :=
  Write.element Tag.sequence (Write.element Tag.set (Write.element Tag.sequence
    (Write.oid Oid.commonName ++ Write.element Tag.printableString (Bytes.ofString "CA"))))

/-- A certificate for an RSA key, with the given `modulus`, that may make signatures. -/
def sampleCertificate (modulus : Nat) : Bytes :=
  let algorithm := (Algorithm.plain Oid.sha1WithRsa).octets
  let bound := Write.element Tag.utcTime (Bytes.ofString "260101000000Z")
  let key := Write.element Tag.sequence (Write.integer modulus ++ Write.integer 3)
  let uses := Write.element Tag.sequence
    (Write.oid Oid.keyUsage ++ Write.octetString (Write.namedBits (BitString.ofBools [true])))
  Write.element Tag.sequence
    (Write.element Tag.sequence
      (Write.element (Tag.contextOctet 0 true) (Write.integer 2) ++ Write.integer 1 ++
        algorithm ++ sampleName ++ Write.element Tag.sequence (bound ++ bound) ++ sampleName ++
        Write.element Tag.sequence
          ((Algorithm.withNull Oid.rsaEncryption).octets ++ Write.wholeBits key) ++
        Write.element (Tag.contextOctet 3 true) (Write.element Tag.sequence uses)) ++
      algorithm ++ Write.wholeBits [])

/-- The product of two primes, no longer than signing `.sha1` digests takes. -/
def sampleModulus : Nat :=
  0xb920a17398ca3ece15f5c823098382104e96037d1c048808e8bf3dee5d77dc9939e4b975078daabbcc8ab477430d

/-- A cube root, modulo `sampleModulus`, of the padded digest of the attributes of a signature over
the octets 1, 2, 3. -/
def sampleSignature : Nat :=
  0xe72b982bfe9846eaa28aeb9edb98871e20faa260213290eb8e772d9762f3a9d5b0b962763d628bcd6aa3a5a043f

/-- The digest of the octets 1, 2, 3, as `Attribute.messageDigest`. -/
def sampleDigest : Attribute := Attribute.messageDigest (Digest.sha1.hash [1, 2, 3])

/-- The attributes of a signature over the octets 1, 2, 3: their type and `sampleDigest`. -/
def sampleAttributes : Bytes := (Attribute.contentType Oid.data).octets ++ sampleDigest.octets

/-- A signer in the name of `sampleName` with the given `attributes`. -/
def sampleSigner (attributes : Bytes) : Bytes :=
  Write.element Tag.sequence
    (Write.word 1 ++ Write.element Tag.sequence (sampleName ++ Write.integer 1) ++
      (Algorithm.plain Oid.sha1).octets ++ Write.element authenticatedTag attributes ++
      (Algorithm.plain Oid.rsaEncryption).octets ++
      Write.octetString (BigEndian.ofNat sampleSignature))

/-- Signed data over the octets 1, 2, 3 with one signer, `sampleSigner attributes`. -/
def sampleSigned (certificates : List Bytes) (attributes : Bytes) : Bytes :=
  ContentInfo.octets ⟨Oid.signedData, some (Value.ofOctet Tag.sequence
    (Write.word 1 ++ (Write.element Tag.set (Algorithm.plain Oid.sha1).octets ++
      ((ContentInfo.data [1, 2, 3]).octets ++
        (Write.element SignedData.certificatesTag certificates.flatten ++
          Write.element Tag.set (sampleSigner attributes))))))⟩

/-- `verify_sound` at `sampleSigned`: a signature over attributes verifies, over the content and
over the same octets on their own. -/
theorem exists_verify_sound_sampleSigned :
    ∃ (s : Signer) (d : SignedData), s.verify d none = .ok true ∧
      s.verify d (some [1, 2, 3]) = .ok true ∧ s.authenticated ≠ none ∧
      (∃ content digest scheme c key signed,
        ((none : Option Bytes) = some content ∨
          (none : Option Bytes) = none ∧
            d.content.content = some (Value.ofOctet Tag.octetString content)) ∧
        digest.oid = s.digestAlgorithm.id ∧ s.encryptionAlgorithm.id ∈ scheme.oids ∧
        c ∈ d.certificates ∧ s.RefersTo c ∧ c.MaySign ∧ c.publicKey = .ok key ∧
        key.verify scheme digest signed s.signature = .ok true ∧
        s.Covers digest d.content.type content signed) ∧
      ∃ (digest : Digest) (content₁ content₂ : Bytes), digest.oid = s.digestAlgorithm.id ∧
        Option.or none d.content.bytes? = some content₁ ∧
        Option.or (some [1, 2, 3]) d.content.bytes? = some content₂ ∧
        digest.hash content₁ = digest.hash content₂ := by
  obtain ⟨d, -, hsigners⟩ := exists_of_map_toOption
    (x := SignedData.ofOctets
      (sampleSigned [sampleCertificate sampleModulus] sampleAttributes) .default)
    (f := fun d => d.signers.map fun s => ((s.verify d none).toOption,
      (s.verify d (some [1, 2, 3])).toOption, s.authenticated.isSome))
    (b := [(some true, some true, true)]) (by decide +kernel)
  obtain ⟨s, -, hs⟩ := List.map_eq_singleton_iff.mp hsigners
  simp only [Prod.mk.injEq, toOption_eq_some] at hs
  obtain ⟨hcontent, hdetached, hattributes⟩ := hs
  have hsome : s.authenticated ≠ none := Option.isSome_iff_ne_none.mp hattributes
  exact ⟨s, d, hcontent, hdetached, hsome, (verify_sound s).1 d none hcontent,
    (verify_sound s).2 d d none (some [1, 2, 3]) hsome hcontent hdetached⟩

end Signer

end Pkix
