import Pkix.Proofs.Name.Match
import Pkix.Proofs.Rsa
import Pkix.Proofs.SignedData.Stability

/-!
# What is signed verifies

A signer that was made with the key of a certificate verifies with that certificate, over the
content that was signed, before and after signed data is written and read again. When it is read the
attributes are the octets that were signed, under the tag that they have in a signer.

* `PrivateKey.Genuine`: the key verifies what it signs. `PrivateKey.genuine_rsa`: every RSA key
  does.
* `Signer.SignedWith`: what a signature consists of.
* `Signer.SignedWith.verify`: it verifies where its certificate is found.
* `SignedData.values_of_octets`: what is read where signed data was written.
* `SignedData.exists_alike_signer`: a signer is read again from its encoding among others.
* `Signer.verify_of_sign`: all this together.
-/

namespace Pkix

open Der

/-! ## Keys and algorithms -/

namespace PrivateKey

/-- The public key verifies what the private key `k` signs. -/
def Genuine (k : PrivateKey) : Prop :=
  ∀ digest message signature, k.sign digest message = .ok signature →
    k.publicKey.verify k.publicKey.scheme digest message signature = .ok true

theorem genuine_rsa (k : Rsa.PrivateKey) : (rsa k).Genuine := by
  intro digest message signature h
  exact congrArg Except.ok (Rsa.verify_sign h)

/-- A signer names an algorithm of the `scheme` of its key `k`. -/
theorem scheme_encryptionAlgorithm (k : PrivateKey) :
    Scheme.ofAlgorithm k.encryptionAlgorithm = .ok k.publicKey.scheme := by
  cases k <;> rfl

end PrivateKey

/-! ## The attributes of a signature -/

namespace AttributeSet

variable {s : AttributeSet} {digest : Digest} {type : Oid} {content : Bytes} {t : Time} {id : Oid}
  {v : Value}

/-- An attribute with one value, `v`, keeps its first value when it is written. -/
theorem keeps_of_get? (h : s.get? id = some ⟨id, [v]⟩) : s.Keeps id := by
  refine .inr fun a ha => ?_
  rw [h, Option.mem_some_iff] at ha
  simp [← ha, Attribute.canonical, SetOrder.sortBy]

/-- Each attribute that `Signer.attributesFor` makes has one value. -/
theorem attributes_of_attributesFor (h : Signer.attributesFor digest type content t = .ok s) :
    new s.attributes = .ok s ∧ ∃ v, s.attributes = [Attribute.contentType type,
      ⟨Oid.signingTime, [v]⟩, Attribute.messageDigest (digest.hash content)] := by
  simp only [Signer.attributesFor, Attribute.signingTime, bind_eq_ok, pure_eq_ok] at h
  obtain ⟨_, ⟨_, -, v, -, rfl⟩, h⟩ := h
  have hs := (new_eq_ok.mp h).1
  exact ⟨by rwa [hs], v, hs⟩

theorem contentType_of_attributesFor (h : Signer.attributesFor digest type content t = .ok s) :
    s.get? Oid.contentType = some (Attribute.contentType type) ∧
      s.contentType = .ok (some type) := by
  obtain ⟨-, v, hs⟩ := attributes_of_attributesFor h
  have hget : s.get? Oid.contentType = some (Attribute.contentType type) := by
    rw [get?, hs]
    rfl
  exact ⟨hget, single_of_get? hget (Value.oid_eq_ok.mpr rfl)⟩

theorem messageDigest_of_attributesFor (h : Signer.attributesFor digest type content t = .ok s) :
    s.get? Oid.messageDigest = some (Attribute.messageDigest (digest.hash content)) ∧
      s.messageDigest = .ok (some (digest.hash content)) := by
  obtain ⟨-, v, hs⟩ := attributes_of_attributesFor h
  have hget : s.get? Oid.messageDigest =
      some (Attribute.messageDigest (digest.hash content)) := by
    rw [get?, hs]
    rfl
  exact ⟨hget, single_of_get? hget (Value.octetString_eq_ok.mpr rfl)⟩

end AttributeSet

/-! ## Signatures -/

namespace Signer

variable {s t : Signer} {key : PrivateKey} {certificate : Certificate} {digest : Digest}
  {type : Oid} {content : Bytes}

/-- The signer `s` signs a `content` with a `key`, in the name of a `certificate`. -/
structure SignedWith (s : Signer) (key : PrivateKey) (certificate : Certificate) (digest : Digest)
    (type : Oid) (content : Bytes) : Prop where
  issuer : certificate.issuer = .ok s.issuer
  serial : certificate.serial = s.serial
  digestAlgorithm : s.digestAlgorithm = digest.algorithm
  encryptionAlgorithm : s.encryptionAlgorithm = key.encryptionAlgorithm
  authenticated : ∀ set ∈ s.authenticated, ∃ t, attributesFor digest type content t = .ok set
  signature : key.sign digest ((s.authenticated.map AttributeSet.encoded).getD content) =
    .ok s.signature
  unauthenticated : s.unauthenticated = none

theorem signedWith_of_sign {time : Option Time}
    (h : sign key certificate digest type content time = .ok s) :
    s.SignedWith key certificate digest type content := by
  cases time with
  | none =>
    simp only [sign, bind_eq_ok, pure_eq_ok] at h
    obtain ⟨_, rfl, signature, hsignature, issuer, hissuer, rfl⟩ := h
    exact ⟨hissuer, rfl, rfl, rfl, by simp, hsignature, rfl⟩
  | some t =>
    simp only [sign, bind_eq_ok, pure_eq_ok] at h
    obtain ⟨set, hset, _, rfl, signature, hsignature, issuer, hissuer, rfl⟩ := h
    exact ⟨hissuer, rfl, rfl, rfl, by simpa using ⟨t, hset⟩, hsignature, rfl⟩

/-- The one `certificate` that a signer `s` refers to is found. -/
theorem certificate?_eq_some {d : SignedData} (hmem : certificate ∈ d.certificates)
    (hrefers : s.RefersTo certificate)
    (hone : ∀ c ∈ d.certificates, s.RefersTo c → c = certificate) :
    s.certificate? d = some certificate := by
  cases hc : s.certificate? d with
  | none =>
    have hnone := List.find?_eq_none.mp hc certificate hmem
    exact absurd (refersTo_iff.mpr hrefers) hnone
  | some c =>
    obtain ⟨hc, hrefers'⟩ := certificate?_refersTo hc
    rw [hone c hc hrefers']

namespace SignedWith

/-- Names and attributes of a signer `s` that was made are such as can be made. -/
theorem made (h : s.SignedWith key certificate digest type content) : s.Made where
  issuer := by
    obtain ⟨v, -, hname⟩ := bind_eq_ok.mp h.issuer
    exact ⟨_, v, hname⟩
  authenticated set hset := by
    obtain ⟨t, hset⟩ := h.authenticated set hset
    exact .inl ⟨_, (AttributeSet.attributes_of_attributesFor hset).1⟩
  unauthenticated set hset := by
    rw [h.unauthenticated] at hset
    cases hset

theorem keeps (h : s.SignedWith key certificate digest type content) : s.Keeps := by
  intro set hset
  obtain ⟨t, hset⟩ := h.authenticated set hset
  exact ⟨AttributeSet.keeps_of_get? (AttributeSet.contentType_of_attributesFor hset).1,
    AttributeSet.keeps_of_get? (AttributeSet.messageDigest_of_attributesFor hset).1⟩

/-- The signer `s` refers to its `certificate`. -/
theorem refersTo (h : s.SignedWith key certificate digest type content) :
    s.RefersTo certificate :=
  ⟨h.serial, s.issuer, h.issuer, s.issuer.beq_self⟩

/-- The signature of `s` has to be over what was signed. -/
theorem signedOctets (h : s.SignedWith key certificate digest type content) :
    s.signedOctets digest type content =
      .ok (some ((s.authenticated.map AttributeSet.encoded).getD content)) := by
  unfold Signer.signedOctets
  cases hset : s.authenticated with
  | none => rfl
  | some set =>
    obtain ⟨t, hmade⟩ := h.authenticated set hset
    have hmatch : attributesMatch set digest type content = .ok true := by
      simp [attributesMatch, (AttributeSet.contentType_of_attributesFor hmade).2,
        (AttributeSet.messageDigest_of_attributesFor hmade).2, bind, Except.bind, pure, Except.pure]
    simp [hmatch, bind, Except.bind, pure, Except.pure]

theorem check (h : s.SignedWith key certificate digest type content) (hkey : key.Genuine)
    (hpublic : certificate.publicKey = .ok key.publicKey) (hmay : certificate.MaySign) :
    s.check digest ((s.authenticated.map AttributeSet.encoded).getD content) certificate =
      .ok true :=
  check_eq_true.mpr ⟨hmay, _, _, h.encryptionAlgorithm ▸ key.scheme_encryptionAlgorithm, hpublic,
    hkey _ _ _ h.signature⟩

/-- **Signing.** A signer `s` that was made with the `key` of a `certificate` verifies over the
`content`, where no other certificate is what it refers to. -/
theorem verify (h : s.SignedWith key certificate digest type content) (hkey : key.Genuine)
    (hpublic : certificate.publicKey = .ok key.publicKey) (hmay : certificate.MaySign)
    {d : SignedData} {detached : Option Bytes} (htype : d.content.type = type)
    (hcontent : detached.or d.content.bytes? = some content) (hmem : certificate ∈ d.certificates)
    (hone : ∀ c ∈ d.certificates, s.RefersTo c → c = certificate) :
    s.verify d detached = .ok true := by
  have hc := certificate?_eq_some hmem h.refersTo hone
  refine verify_eq_true.mpr ⟨content, digest, _, certificate, hcontent, ?_, ?_, hc,
    h.check hkey hpublic hmay⟩
  · rw [h.digestAlgorithm]
    exact Digest.ofAlgorithm_eq_ok.mpr rfl
  · rw [htype]
    exact h.signedOctets

end SignedWith

end Signer

/-! ## Signers among others -/

namespace SignedData

variable {d q : SignedData} {b : Bytes} {s t : Signer}

/-- What is written for any data `d` is read with the same content, the same certificates in another
order, and signers from the encodings `vs` that were written for signers. -/
theorem values_of_octets (hb : d.octets = .ok b) (hq : ofOctets b .default = .ok q) :
    q.content = d.content ∧ q.certificates.Perm d.certificates ∧
      ∃ vs : List Value, (∀ v ∈ vs, v.octets.length < UInt32.size) ∧
        vs.mapM (Signer.ofValue .default .current) = .ok q.signers ∧
        ∀ s ∈ d.signers, ∃ v ∈ vs, s.octets = .ok v.octets := by
  obtain ⟨es, hes, rfl⟩ := exists_octets_eq hb
  obtain ⟨cs, rs, hcs, -, hfront⟩ := d.exists_front_eq
  have hmem {e : Bytes} : e ∈ SetOrder.sort es ↔ e ∈ es := (List.mergeSort_perm _ _).mem_iff
  have hvalues : ∀ e ∈ SetOrder.sort es, ∃ v : Value, True ∧ e = v.octets := by
    intro e he
    obtain ⟨v, hv⟩ := Signer.exists_value_of_mapM hes e (hmem.mp he)
    exact ⟨v, trivial, hv⟩
  obtain ⟨vs, hvs, -⟩ := exists_values hvalues
  have hencoding : d.encodingWith (SetOrder.sort es) =
      wrap (layOut (d.version.getD 1) d.content
        (d.canonical.digestAlgorithms.map Algorithm.value) cs rs vs) := by
    rw [encodingWith, hvs, ← hfront]
    rfl
  rw [hencoding] at hq
  obtain ⟨hcontent, hcertificates, hlen, hsigners⟩ := ofOctets_wrap_layOut (by decide) hq
  have hsame := eq_of_mapM_certificates hcs hcertificates
  refine ⟨hcontent, hsame ▸ SetOrder.sortBy_perm _ _, vs, hlen, hsigners, fun s hs => ?_⟩
  obtain ⟨e, he, hs⟩ := exists_of_mem_of_mapM hes s hs
  rw [← hmem, hvs] at he
  obtain ⟨v, hv, rfl⟩ := List.mem_map.mp he
  exact ⟨v, hv, hs⟩

/-- A signer `s` that was made is read again from its own encoding, whatever stands around it, and
what is read from that, `t`, has the same parts. -/
theorem exists_alike_signer (hmade : s.Made) (hs : s ∈ d.signers) (hb : d.octets = .ok b)
    (hq : ofOctets b .default = .ok q) :
    (∃ t ∈ q.signers, t.octets = s.octets) ∧
      ∀ t ∈ q.signers, t.octets = s.octets → s.Alike t ∧ s.Writable ∧ t.Readable .default := by
  obtain ⟨-, -, vs, hlen, hread, hwritten⟩ := values_of_octets hb hq
  obtain ⟨v, hv, hoctets⟩ := hwritten s hs
  obtain ⟨hwrite, hvalue⟩ := (Signer.octets_eq_ok hmade.hasSets).mp hoctets
  have hframed : s.value.Framed := Value.framed_of_length (hvalue ▸ hlen v hv)
  -- values with the same octets are the same, so other encodings are not taken for this one
  have heq {w : Value} (hw : w ∈ vs) (h : w.octets = s.value.octets) : w = s.value := by
    have h : w.octets ++ [] = s.value.octets ++ [] := congrArg (· ++ []) h
    exact (Value.octets_append_inj (Value.framed_of_length (hlen w hw)) hframed h).1
  refine ⟨?_, fun t ht h => ?_⟩
  · obtain ⟨t, ht, hvt⟩ := exists_of_mem_of_mapM hread v hv
    rw [heq hv hvalue.symm] at hvt
    exact ⟨t, ht, Signer.octets_of_alike (Signer.alike_of_ofValue hmade hframed hvt)⟩
  · obtain ⟨w, hw, hwt⟩ := exists_of_mapM hread t ht
    obtain ⟨rfl, ht⟩ :=
      (Signer.ofValue_current_eq_ok (Value.framed_of_length (hlen w hw))).mp hwt
    rw [hoctets] at h
    have hsame := ((Signer.octets_eq_ok ht.hasSets).mp h).2
    rw [heq hw (hsame.trans hvalue.symm)] at hwt
    exact ⟨Signer.alike_of_ofValue hmade hframed hwt, hwrite, ht⟩

end SignedData

/-- **What is signed verifies.** Let a `content` be signed with the `key` of a `certificate`. The
signer `s` verifies in any signed data `d` with the type of the content that has the content or is
given it, that has the certificate and no other one that `s` refers to, if the certificate allows
signatures. If `d` is written and read again, what is read for `s` verifies too. -/
theorem Signer.verify_of_sign {key : PrivateKey} {certificate : Certificate} {digest : Digest}
    {type : Oid} {content : Bytes} {time : Option Time} {s : Signer} {d : SignedData}
    {detached : Option Bytes} (hkey : key.Genuine)
    (hpublic : certificate.publicKey = .ok key.publicKey)
    (hsign : sign key certificate digest type content time = .ok s)
    (htype : d.content.type = type)
    (hcontent : detached = some content ∨
      detached = none ∧ d.content.content = some (Value.ofOctet Tag.octetString content))
    (hmem : certificate ∈ d.certificates)
    (hone : ∀ c ∈ d.certificates, s.RefersTo c → c = certificate) (hmay : certificate.MaySign)
    (hs : s ∈ d.signers) :
    s.verify d detached = .ok true ∧
      ∀ b q, d.octets = .ok b → SignedData.ofOctets b .default = .ok q →
        (∃ t ∈ q.signers, t.octets = s.octets) ∧
          ∀ t ∈ q.signers, t.octets = s.octets → t.verify q detached = .ok true := by
  have hsigned := signedWith_of_sign hsign
  have hfound : detached.or d.content.bytes? = some content := by
    obtain rfl | ⟨rfl, hcontent⟩ := hcontent
    · rfl
    · exact ContentInfo.bytes?_eq_some.mpr hcontent
  refine ⟨hsigned.verify hkey hpublic hmay htype hfound hmem hone, fun b q hb hq => ?_⟩
  obtain ⟨hread, halike⟩ := SignedData.exists_alike_signer hsigned.made hs hb hq
  refine ⟨hread, fun t ht h => ?_⟩
  obtain ⟨halike, hwrite, hreadable⟩ := halike t ht h
  obtain ⟨hsame, hperm, -⟩ := SignedData.values_of_octets hb hq
  have hfirst := sameFirst_of_readable hsigned.made hsigned.keeps hwrite halike hreadable
  rw [verify_of_alike (p := q) halike hfirst rfl rfl detached]
  rw [← hsame] at htype hfound
  exact hsigned.verify hkey hpublic hmay htype hfound (hperm.mem_iff.mpr hmem)
    fun c hc => hone c (hperm.mem_iff.mp hc)

namespace Signer

/-- An RSA key, with a modulus no longer than signing `.sha1` digests takes. -/
def signingKey : Rsa.PrivateKey where
  publicKey.modulus :=
    0xcbbf16e264ebdb24aa1f7d8871cc159231c87aae14655a7ba70b819a8dce91d022ec45df45429c69f4c323a95c93
  publicKey.exponent := 3
  publicKey.valid := by decide +kernel
  exponent :=
    0x21f52e7b10d1f9db71afea41684cae43084c147258bb8ec838cec5f0cc40f7552751ae4845828ce11415c217b617
  p := 0xf803abeb6e408c623e8cfe19509df849f9bbef629af95d
  q := 0xd24e86f28783bc6392aa0416dd063b0529c05134801eaf
  valid := by decide +kernel

/-- The start of 2026. -/
def sampleTime : Attribute :=
  ⟨Oid.signingTime, [Value.ofOctet Tag.utcTime (Bytes.ofString "260101000000Z")]⟩

/-- The attributes of a signature over the octets 1, 2, 3 at the time of `sampleTime`. -/
def signingAttributes : AttributeSet where
  attributes := [Attribute.contentType Oid.data, sampleTime, sampleDigest]
  encoded := Write.element Tag.set ((Attribute.contentType Oid.data).octets ++
    (sampleTime.octets ++ sampleDigest.octets))
  distinct := by decide +kernel

theorem attributesFor_signingAttributes :
    attributesFor .sha1 Oid.data [1, 2, 3] ⟨1767225600, 0, 0⟩ = .ok signingAttributes := by
  have htime : Attribute.signingTime ⟨1767225600, 0, 0⟩ = .ok sampleTime :=
    toOption_eq_some.mp (by decide +kernel)
  have hsort : SetOrder.sort (signingAttributes.attributes.map Attribute.octets) =
      signingAttributes.attributes.map Attribute.octets :=
    List.mergeSort_of_pairwise (by decide +kernel)
  have hnew : AttributeSet.new signingAttributes.attributes = .ok signingAttributes := by
    refine AttributeSet.new_eq_ok.mpr ⟨rfl, ?_⟩
    rw [Write.setOf, hsort]
    simp [signingAttributes]
  simp only [attributesFor, bind_eq_ok]
  exact ⟨_, htime, hnew⟩

/-- The signature over `signingAttributes`. -/
def signingSignature : Bytes :=
  BigEndian.ofNatWidth 46
    0x99a62c11f37670702e8571b91095f782c452f98677bcdb3ec7b7e5ec5ae88bdfe756fa2b6edb6e8dcc6585ecc090

/-- The signer in the name of a `certificate`, whose issuer is `issuer`. -/
def signingSigner (issuer : Name) (certificate : Certificate) : Signer where
  version := 1
  issuer := issuer
  serial := certificate.serial
  digestAlgorithm := Digest.sha1.algorithm
  authenticated := some signingAttributes
  encryptionAlgorithm := (PrivateKey.rsa signingKey).encryptionAlgorithm
  signature := signingSignature
  unauthenticated := none

theorem sign_signingSigner {issuer : Name} {certificate : Certificate}
    (h : certificate.issuer = .ok issuer) :
    sign (.rsa signingKey) certificate .sha1 Oid.data [1, 2, 3] (some ⟨1767225600, 0, 0⟩) =
      .ok (signingSigner issuer certificate) := by
  have hsignature : (PrivateKey.rsa signingKey).sign .sha1 signingAttributes.encoded =
      .ok signingSignature := toOption_eq_some.mp (by decide +kernel)
  simp [sign, attributesFor_signingAttributes, hsignature, h, signingSigner, bind, Except.bind,
    pure, Except.pure]

/-- Signed data over the octets 1, 2, 3 with one signer, `s`. -/
def signedOnce (certificate : Certificate) (s : Signer) : SignedData :=
  .new [Digest.sha1.algorithm] (.data [1, 2, 3]) [certificate] [] [s]

/-- `verify_of_sign` at `signingKey`: a signature over `signingAttributes` verifies, and is still
there when it is read again. -/
theorem exists_verify_of_sign :
    ∃ (certificate : Certificate) (s : Signer) (b : Bytes) (q : SignedData),
      sign (.rsa signingKey) certificate .sha1 Oid.data [1, 2, 3] (some ⟨1767225600, 0, 0⟩) =
        .ok s ∧
      s.authenticated = some signingAttributes ∧
      s.verify (signedOnce certificate s) none = .ok true ∧
      (signedOnce certificate s).octets = .ok b ∧ SignedData.ofOctets b .default = .ok q ∧
      (∃ t ∈ q.signers, t.octets = s.octets) ∧
      ∀ t ∈ q.signers, t.octets = s.octets → t.verify q none = .ok true := by
  obtain ⟨certificate, -, h⟩ := exists_of_map_toOption
    (x := Certificate.ofOctets (sampleCertificate signingKey.publicKey.modulus))
    (f := fun c => (c.publicKey.toOption, (maySign c).toOption, c.issuer.toOption.map fun n =>
      ((signedOnce c (signingSigner n c)).octets.toOption.map fun b =>
        (SignedData.ofOctets b .default).toOption.isSome)))
    (b := (some (.rsa signingKey.publicKey), some true, some (some true))) (by decide +kernel)
  simp only [Prod.mk.injEq, toOption_eq_some] at h
  obtain ⟨hpublic, hmay, hissuer⟩ := h
  obtain ⟨issuer, hissuer, hwritten⟩ := exists_of_map_toOption hissuer
  obtain ⟨b, hb, hread⟩ := exists_of_map_toOption hwritten
  obtain ⟨q, hq⟩ := Option.isSome_iff_exists.mp hread
  have hq := toOption_eq_some.mp hq
  have hsign := sign_signingSigner hissuer
  obtain ⟨hverify, htransport⟩ := verify_of_sign (d := signedOnce certificate _)
    (PrivateKey.genuine_rsa signingKey) hpublic hsign rfl (.inr ⟨rfl, rfl⟩) List.mem_cons_self
    (by simp [signedOnce, SignedData.new]) (maySign_eq_true.mp hmay) List.mem_cons_self
  exact ⟨certificate, _, b, q, hsign, rfl, hverify, hb, hq, htransport b q hb hq⟩

end Signer

end Pkix
