import Pkix.Proofs.Refusals
import Pkix.Proofs.SignedData.Batch

/-!
# Why verifying fails

Verifying is meant to fail only where an algorithm or a key cannot be used. It also fails where a
part of a signer, or of its certificate, cannot be read when its turn comes; then the other signers
get no answer either.

* `Signer.verify_eq_error`: the steps at which the answer of a signer may be an error.
* `Signer.Stuck`: a part that is needed cannot be read. `Signer.stuck_iff`: this is what all other
  errors come from.
* `SignedData.verify_failures`: what verifying fails with.
-/

namespace Pkix

open Der

/-! ## Algorithms and keys that cannot be used -/

theorem Digest.failsWith_ofAlgorithm (a : Algorithm) :
    FailsWith Error.IsUnusable (Digest.ofAlgorithm a) := by
  unfold Digest.ofAlgorithm
  split <;> simp [Error.IsUnusable]

theorem Scheme.failsWith_ofAlgorithm (a : Algorithm) :
    FailsWith Error.IsUnusable (Scheme.ofAlgorithm a) := by
  unfold Scheme.ofAlgorithm
  split <;> simp [Error.IsUnusable]

theorem PublicKey.failsWith_verify (k : PublicKey) (scheme : Scheme) (digest : Digest)
    (message signature : Bytes) :
    FailsWith Error.IsUnusable (k.verify scheme digest message signature) := by
  unfold PublicKey.verify
  cases k <;> simp [Error.IsUnusable]

/-- Whether a key `k` can be used does not depend on the `signature` that it is used on. -/
theorem PublicKey.verify_eq_error_congr {k : PublicKey} {scheme : Scheme} {digest : Digest}
    {message : Bytes} (signature signature' : Bytes) {e : Error} :
    k.verify scheme digest message signature = .error e ↔
      k.verify scheme digest message signature' = .error e := by
  unfold PublicKey.verify
  cases k <;> split_ifs <;> simp

/-- An attribute is refused as its first value is by `read`. -/
theorem AttributeSet.onlyMalformed_single {α : Type} {set : AttributeSet} {id : Oid}
    {read : Value → Except Error α} (h : ∀ v, OnlyMalformed (read v)) :
    OnlyMalformed (set.single id read) := by
  unfold AttributeSet.single
  split
  · exact failsWith_ok
  · exact failsWith_bind.mpr ⟨h _, fun _ _ => failsWith_pure⟩

namespace Signer

variable {s : Signer} {d : SignedData} {detached : Option Bytes} {e : Error}

/-! ## The steps that may fail -/

theorem attributesMatch_eq_error {set : AttributeSet} {digest : Digest} {type : Oid}
    {content : Bytes} :
    attributesMatch set digest type content = .error e ↔
      set.contentType = .error e ∨
        set.contentType = .ok (some type) ∧ set.messageDigest = .error e := by
  rw [attributesMatch, bind_eq_error]
  refine or_congr_right ?_
  constructor
  · rintro ⟨found, htype, h⟩
    split at h
    · cases h
    · rename_i hfound
      rw [ne_eq, Decidable.not_not] at hfound
      rw [bind_eq_error] at h
      obtain h | ⟨_, -, h⟩ := h
      · exact ⟨hfound ▸ htype, h⟩
      · cases h
  · rintro ⟨htype, h⟩
    refine ⟨_, htype, ?_⟩
    rw [if_neg (by simp), bind_eq_error]
    exact .inl h

theorem signedOctets_eq_error {digest : Digest} {type : Oid} {content : Bytes} :
    s.signedOctets digest type content = .error e ↔ ∃ set, s.authenticated = some set ∧
      (set.contentType = .error e ∨
        set.contentType = .ok (some type) ∧ set.messageDigest = .error e) := by
  unfold signedOctets
  cases s.authenticated with
  | none => simp [pure, Except.pure]
  | some set => simp [bind_eq_error, attributesMatch_eq_error, pure, Except.pure, -bind_pure_comp]

theorem maySign_eq_error {c : Certificate} : maySign c = .error e ↔ c.keyUsage? = .error e := by
  rw [maySign, bind_eq_error]
  refine or_iff_left ?_
  rintro ⟨t, -, h⟩
  split at h <;> cases h

theorem check_eq_error {digest : Digest} {signed : Bytes} {c : Certificate} :
    s.check digest signed c = .error e ↔ c.keyUsage? = .error e ∨
      maySign c = .ok false ∧ e = .signature .keyUsage ∨
      maySign c = .ok true ∧ (Scheme.ofAlgorithm s.encryptionAlgorithm = .error e ∨
        ∃ scheme, Scheme.ofAlgorithm s.encryptionAlgorithm = .ok scheme ∧
          (c.publicKey = .error e ∨ ∃ key, c.publicKey = .ok key ∧
            key.verify scheme digest signed s.signature = .error e)) := by
  rw [check, bind_eq_error, maySign_eq_error]
  refine or_congr_right ?_
  cases maySign c with
  | error e => simp
  | ok may =>
    cases may with
    | false => simp [eq_comm]
    | true => simp [bind_eq_error]

/-- The answer of a signer `s` is an error `e` if a step is one that is reached. -/
theorem verify_eq_error :
    s.verify d detached = .error e ↔ ∃ content, detached.or d.content.bytes? = some content ∧
      (Digest.ofAlgorithm s.digestAlgorithm = .error e ∨
        ∃ digest, Digest.ofAlgorithm s.digestAlgorithm = .ok digest ∧
          (s.signedOctets digest d.content.type content = .error e ∨
            ∃ signed c, s.signedOctets digest d.content.type content = .ok (some signed) ∧
              s.certificate? d = some c ∧ s.check digest signed c = .error e)) := by
  unfold verify
  cases detached.or d.content.bytes? with
  | none => simp [pure, Except.pure]
  | some content =>
    simp only [bind_eq_error, Option.some.injEq, exists_eq_left']
    refine or_congr_right (exists_congr fun digest => and_congr_right fun _ => or_congr_right ?_)
    constructor
    · rintro ⟨o, hsigned, h⟩
      cases o with
      | none => cases h
      | some signed =>
        cases hc : s.certificate? d with
        | none =>
          rw [hc] at h
          cases h
        | some c =>
          rw [hc] at h
          exact ⟨signed, c, hsigned, rfl, h⟩
    · rintro ⟨signed, c, hsigned, hc, h⟩
      refine ⟨some signed, hsigned, ?_⟩
      rw [hc]
      exact h

/-- Whether the answer of a signer `s` is an error does not depend on its `signature`. -/
theorem verify_eq_error_congr (s : Signer) (d : SignedData) (detached : Option Bytes) (e : Error)
    (signature : Bytes) :
    { s with signature := signature }.verify d detached = .error e ↔
      s.verify d detached = .error e := by
  rw [verify_eq_error, verify_eq_error]
  simp only [check_eq_error, PublicKey.verify_eq_error_congr signature s.signature]
  rfl

/-! ## Parts that cannot be read -/

/-- `Stuck s d detached e`: a part that is needed to check the signer `s` cannot be read when its
turn comes, for the reason `e`. -/
inductive Stuck (s : Signer) (d : SignedData) (detached : Option Bytes) : Error → Prop
  /-- The first value of the `contentType` attribute is no OBJECT IDENTIFIER. -/
  | contentType {content : Bytes} {digest : Digest} {set : AttributeSet} {e : Error}
      (hcontent : detached.or d.content.bytes? = some content)
      (hdigest : Digest.ofAlgorithm s.digestAlgorithm = .ok digest)
      (hset : s.authenticated = some set) (h : set.contentType = .error e) : Stuck s d detached e
  /-- The first value of the `messageDigest` attribute is no OCTET STRING. -/
  | messageDigest {content : Bytes} {digest : Digest} {set : AttributeSet} {e : Error}
      (hcontent : detached.or d.content.bytes? = some content)
      (hdigest : Digest.ofAlgorithm s.digestAlgorithm = .ok digest)
      (hset : s.authenticated = some set) (htype : set.contentType = .ok (some d.content.type))
      (h : set.messageDigest = .error e) : Stuck s d detached e
  /-- The key usage of the certificate `c` cannot be read. -/
  | keyUsage {content signed : Bytes} {digest : Digest} {c : Certificate} {e : Error}
      (hcontent : detached.or d.content.bytes? = some content)
      (hdigest : Digest.ofAlgorithm s.digestAlgorithm = .ok digest)
      (hsigned : s.signedOctets digest d.content.type content = .ok (some signed))
      (hc : s.certificate? d = some c) (h : c.keyUsage? = .error e) : Stuck s d detached e
  /-- The key of the certificate `c` cannot be read, and not because it is of a kind that cannot be
  used. -/
  | publicKey {content signed : Bytes} {digest : Digest} {c : Certificate} {scheme : Scheme}
      {e : Error} (hcontent : detached.or d.content.bytes? = some content)
      (hdigest : Digest.ofAlgorithm s.digestAlgorithm = .ok digest)
      (hsigned : s.signedOctets digest d.content.type content = .ok (some signed))
      (hc : s.certificate? d = some c) (hmay : maySign c = .ok true)
      (hscheme : Scheme.ofAlgorithm s.encryptionAlgorithm = .ok scheme)
      (h : c.publicKey = .error e) (hkey : ¬e.IsUnusable) : Stuck s d detached e

/-- A part that cannot be read is at fault in its encoding (`IsMalformed`), or holds the numbers of
no RSA key. -/
theorem Stuck.isMalformed_or (h : s.Stuck d detached e) : e.IsMalformed ∨ e = .rsa := by
  cases h with
  | contentType _ _ _ h =>
    exact .inl (AttributeSet.onlyMalformed_single Value.onlyMalformed_oid e h)
  | messageDigest _ _ _ _ h =>
    exact .inl (AttributeSet.onlyMalformed_single Value.onlyMalformed_octetString e h)
  | keyUsage _ _ _ _ h => exact .inl (Certificate.onlyMalformed_keyUsage? _ e h)
  | publicKey _ _ _ _ _ _ h hkey =>
    obtain h | h | h := Certificate.failsWith_publicKey _ e h
    · exact .inl h
    · exact .inr h
    · exact absurd h hkey

theorem Stuck.not_isUnusable (h : s.Stuck d detached e) : ¬e.IsUnusable := by
  obtain h | rfl := h.isMalformed_or
  · exact h.not_isUnusable
  · exact id

theorem Stuck.verify_eq_error (h : s.Stuck d detached e) : s.verify d detached = .error e := by
  rw [Signer.verify_eq_error]
  cases h with
  | contentType hcontent hdigest hset h =>
    exact ⟨_, hcontent, .inr ⟨_, hdigest, .inl (signedOctets_eq_error.mpr ⟨_, hset, .inl h⟩)⟩⟩
  | messageDigest hcontent hdigest hset htype h =>
    exact ⟨_, hcontent, .inr ⟨_, hdigest, .inl (signedOctets_eq_error.mpr
      ⟨_, hset, .inr ⟨htype, h⟩⟩)⟩⟩
  | keyUsage hcontent hdigest hsigned hc h =>
    exact ⟨_, hcontent, .inr ⟨_, hdigest, .inr ⟨_, _, hsigned, hc, check_eq_error.mpr (.inl h)⟩⟩⟩
  | publicKey hcontent hdigest hsigned hc hmay hscheme h =>
    exact ⟨_, hcontent, .inr ⟨_, hdigest, .inr ⟨_, _, hsigned, hc, check_eq_error.mpr
      (.inr (.inr ⟨hmay, .inr ⟨_, hscheme, .inl h⟩⟩))⟩⟩⟩

/-- Unless an algorithm or a key cannot be used (`IsUnusable`), an error `e` is that of a part that
cannot be read. -/
theorem stuck_iff :
    s.Stuck d detached e ↔ s.verify d detached = .error e ∧ ¬e.IsUnusable := by
  refine ⟨fun h => ⟨h.verify_eq_error, h.not_isUnusable⟩, fun ⟨h, hkind⟩ => ?_⟩
  obtain ⟨content, hcontent, h | ⟨digest, hdigest, h | ⟨signed, c, hsigned, hc, h⟩⟩⟩ :=
    Signer.verify_eq_error.mp h
  · exact absurd (Digest.failsWith_ofAlgorithm _ e h) hkind
  · obtain ⟨set, hset, h | ⟨htype, h⟩⟩ := signedOctets_eq_error.mp h
    · exact .contentType hcontent hdigest hset h
    · exact .messageDigest hcontent hdigest hset htype h
  · obtain h | ⟨-, rfl⟩ | ⟨hmay, h | ⟨scheme, hscheme, h | ⟨key, -, h⟩⟩⟩ := check_eq_error.mp h
    · exact .keyUsage hcontent hdigest hsigned hc h
    · exact absurd trivial hkind
    · exact absurd (Scheme.failsWith_ofAlgorithm _ e h) hkind
    · exact .publicKey hcontent hdigest hsigned hc hmay hscheme h hkind
    · exact absurd (key.failsWith_verify _ _ _ _ e h) hkind

end Signer

/-! ## Signed data -/

namespace SignedData

/-- **Failures.** `d.verify` succeeds or fails for an algorithm or a key that cannot be used
(`IsUnusable`), unless a part of a signer cannot be read (`Stuck`). All other errors come from such
a part of the first signer whose answer is an error; it is at fault in its encoding, or holds the
numbers of no RSA key. The octets of a `signature` never make a difference. -/
theorem verify_failures (d : SignedData) (detached : Option Bytes) :
    ((∀ s ∈ d.signers, ∀ e, ¬s.Stuck d detached e) →
      (∃ r, d.verify detached = .ok r) ∨ ∃ e, d.verify detached = .error e ∧ e.IsUnusable) ∧
    (∀ e, (d.verify detached = .error e ∧ ¬e.IsUnusable) ↔
      ∃ before s after, d.signers = before ++ s :: after ∧
        (∀ t ∈ before, ∃ b, t.verify d detached = .ok b) ∧ s.Stuck d detached e) ∧
    (∀ (s : Signer) e, s.Stuck d detached e → e.IsMalformed ∨ e = .rsa) ∧
    ∀ (s : Signer) signature e, { s with signature := signature }.verify d detached = .error e ↔
      s.verify d detached = .error e := by
  have hfirst (e : Error) : (d.verify detached = .error e ∧ ¬e.IsUnusable) ↔
      ∃ before s after, d.signers = before ++ s :: after ∧
        (∀ t ∈ before, ∃ b, t.verify d detached = .ok b) ∧ s.Stuck d detached e := by
    simp only [verify_eq_error, Signer.stuck_iff]
    constructor
    · rintro ⟨⟨before, s, after, hd, hbefore, hs⟩, hkind⟩
      exact ⟨before, s, after, hd, hbefore, hs, hkind⟩
    · rintro ⟨before, s, after, hd, hbefore, hs, hkind⟩
      exact ⟨⟨before, s, after, hd, hbefore, hs⟩, hkind⟩
  refine ⟨fun hread => ?_, hfirst, fun s e h => h.isMalformed_or,
    fun s signature e => s.verify_eq_error_congr d detached e signature⟩
  cases hd : d.verify detached with
  | ok r => exact .inl ⟨r, rfl⟩
  | error e =>
    refine .inr ⟨e, rfl, ?_⟩
    by_contra hkind
    obtain ⟨before, s, after, hsigners, -, hstuck⟩ := (hfirst e).mp ⟨hd, hkind⟩
    exact hread s (by simp [hsigners]) e hstuck

/-- A signer whose `contentType` attribute holds a BOOLEAN. -/
def stuckSigner : Bytes :=
  Signer.sampleSigner ((Attribute.octets ⟨Oid.contentType, [Value.ofOctet Tag.boolean [0xFF]]⟩) ++
    Signer.sampleDigest.octets)

/-- What `stuckSigner` is refused for. -/
def stuckError : Error := .malformed (.unexpectedType "OBJECT IDENTIFIER" [Tag.boolean])

/-- `verify_failures` where all parts of the signers of `p` can be read, one that does not verify is
left out; a signer `s` with an attribute of another type makes verifying `q` fail with a complaint
about its encoding. -/
theorem exists_verify_failures_sampleBatch :
    ∃ (p q : SignedData) (s : Signer) (e : Error), p.signers.length = 2 ∧
      ((∃ r, p.verify none = .ok r) ∨ ∃ e, p.verify none = .error e ∧ e.IsUnusable) ∧
      s ∈ q.signers ∧ s.Stuck q none e ∧ (e.IsMalformed ∨ e = .rsa) := by
  obtain ⟨p, -, hp⟩ := exists_of_map_toOption
    (x := ofOctets (sampleBatch [Signer.sampleSigner Signer.sampleAttributes,
      Signer.sampleSigner (Attribute.messageDigest []).octets]) .default)
    (f := fun p => p.signers.map fun s => error? (s.verify p none)) (b := [none, none])
    (by decide +kernel)
  obtain ⟨q, -, hq⟩ := exists_of_map_toOption (x := ofOctets (sampleBatch [stuckSigner]) .default)
    (f := fun q => q.signers.map fun s => error? (s.verify q none)) (b := [some stuckError])
    (by decide +kernel)
  have hread : ∀ s ∈ p.signers, ∀ e, ¬s.Stuck p none e := by
    intro s hs e hstuck
    have hnone : error? (s.verify p none) ∈ p.signers.map fun s => error? (s.verify p none) :=
      List.mem_map_of_mem hs
    rw [hp, error?_eq_some.mpr hstuck.verify_eq_error] at hnone
    simp at hnone
  obtain ⟨s, hs, herror⟩ := List.map_eq_singleton_iff.mp hq
  have hstuck : s.Stuck q none stuckError :=
    Signer.stuck_iff.mpr ⟨error?_eq_some.mp herror, by decide⟩
  exact ⟨p, q, s, stuckError, by simpa using congrArg List.length hp,
    (verify_failures p none).1 hread, by simp [hs], hstuck,
    (verify_failures q none).2.2.1 s stuckError hstuck⟩

/-- **One signer can make verifying fail.** Of two signers of `d` one, `s`, verifies, but the answer
`e` is a complaint about an attribute of the other one, `t`, and not one about an algorithm or a
key. -/
theorem exists_verify_malformed :
    ∃ (d : SignedData) (s t : Signer) (e : Error),
      ofOctets (sampleBatch [Signer.sampleSigner Signer.sampleAttributes, stuckSigner]) .default =
        .ok d ∧
      d.signers = [s, t] ∧ s.verify d none = .ok true ∧ d.verify none = .error e ∧
      ¬e.IsUnusable := by
  obtain ⟨d, hd, hfields⟩ := exists_of_map_toOption
    (x := ofOctets (sampleBatch [Signer.sampleSigner Signer.sampleAttributes, stuckSigner])
      .default)
    (f := fun d => (d.signers.map fun s => (s.verify d none).toOption, error? (d.verify none)))
    (b := ([some true, none], some stuckError)) (by decide +kernel)
  obtain ⟨hsigners, herror⟩ := Prod.mk.inj hfields
  obtain ⟨s, _, hd', hs, ht⟩ := List.map_eq_cons_iff.mp hsigners
  obtain ⟨t, rfl, -⟩ := List.map_eq_singleton_iff.mp ht
  exact ⟨d, s, t, stuckError, hd, hd', toOption_eq_some.mp hs, error?_eq_some.mp herror, by decide⟩

end SignedData

end Pkix
