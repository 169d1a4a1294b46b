import Pkix.Proofs.Certificate.Fields
import Pkix.Proofs.Issuer.Revocation
import Pkix.Proofs.Issuer.Usage
import Pkix.Proofs.Name.Fields

/-!
# An issued certificate carries its request

A request goes through the writers of names, keys and extensions and comes back through readers that
take on less than the writers: a list of at most 65536 purposes, a body of at most 64 MiB, and keys
whose numbers are in the range of readers.

* `TbsCertificate.current_of_body`: the structure of a new certificate with extensions.
* `Issuer.Answers`: a certificate with what an issuer wrote for a request.
  `Issuer.answers_of_issue`: certificates that are issued are such.
* `Issuer.Answers.request_eq_ok`: when the request is taken from the certificate again.
* `Issuer.issue_carries_request`: request, uses and signature.
-/

namespace Pkix

open Der

/-! ## What is written -/

namespace EncodedName

theorem octets_ofRelativeNames (rdns : List RelativeName) :
    (ofRelativeNames rdns).octets = Name.encode rdns := by
  rw [octets, ofRelativeNames, List.flatMap_map]
  rfl

theorem value_ofRelativeNames (as : List Assertion) :
    (ofRelativeNames (as.map RelativeName.single)).value = Name.written as := by
  apply Value.octets_inj
  rw [octets_value, octets_ofRelativeNames, Name.encode_single]

end EncodedName

/-- The value that the key `k` is written as. -/
def PublicKey.value (k : PublicKey) : Value :=
  Value.ofOctet Tag.sequence (k.algorithm.octets ++ Write.wholeBits k.bits)

theorem PublicKey.octets_value (k : PublicKey) : k.value.octets = k.octets :=
  Value.octets_ofOctet (by decide) _

theorem PublicKey.ofOctets_of_length {k : PublicKey}
    (h : k.octets.length ≤ Limits.default.maxInput) : ofOctets k.octets = ofValue k.value := by
  rw [ofOctets, decode_eq_ok.mpr ⟨h, k.octets_value⟩]
  rfl

/-- A new certificate `t` with extensions is of version 3, without unique identifiers. -/
theorem TbsCertificate.current_of_body {t : TbsCertificate} {b : Certificate.Body}
    (h : t.body = .ok b) (hne : t.extensions ≠ []) :
    ∃ es, b.Current t.algorithm.algorithm.value t.publicKey.value es := by
  obtain ⟨es, _, _, _, hes, -, -, -, rfl⟩ := body_eq_ok_iff.mp h
  have hsome : es ≠ [] := by
    rw [ne_eq, ← List.length_eq_zero_iff, length_of_mapM hes, List.length_eq_zero_iff]
    exact hne
  exact ⟨es, rfl, (Algorithm.octets_value _).symm, (PublicKey.octets_value _).symm, rfl, rfl,
    if_neg hsome⟩

namespace Issuer

variable {i : Issuer} {serial : Int} {notBefore notAfter : Time} {r : Request} {c : Certificate}

/-- The certificate `c` has what the issuer `i` wrote for the request `r`: the body `b` with the
extensions `es`, and the `signature`. -/
structure Answers (i : Issuer) (r : Request) (c : Certificate) (b : Certificate.Body)
    (es : List EncodedExtension) (signature : Bytes) : Prop where
  current : b.Current i.key.signatureAlgorithm.algorithm.value r.publicKey.value es
  subject : b.subject = .ofRelativeNames r.subject.relativeNames
  extensions : es.map EncodedExtension.extension = r.implied
  rawExtensions : c.rawExtensions = r.implied
  sign : i.key.sign i.key.signatureAlgorithm.digest b.octets = .ok signature
  signed : c.signed = .ok ⟨b.octets, i.key.signatureAlgorithm.algorithm, signature⟩

theorem tbs_eq_ok {t : TbsCertificate} (h : i.tbs serial notBefore notAfter r = .ok t) :
    t.algorithm = i.key.signatureAlgorithm ∧ t.publicKey = r.publicKey ∧
      t.subject = .ofRelativeNames r.subject.relativeNames ∧
      t.extensions = r.extensions ++ r.implied := by
  simp only [tbs, r.allExtensions_eq, NameFields.encodedName, NameFields.parse_text, bind_eq_ok,
    pure_eq_ok, ite_error_eq_ok, Except.ok.injEq, exists_eq_left'] at h
  obtain ⟨subject, ⟨_, ⟨-, rfl⟩, rfl⟩, rfl⟩ := h
  exact ⟨rfl, rfl, rfl, rfl⟩

/-- A certificate `c` that is issued has what the issuer wrote for the request `r`. -/
theorem answers_of_issue (h : i.issue serial notBefore notAfter r = .ok c)
    (hnone : r.extensions = []) : ∃ b es signature, i.Answers r c b es signature := by
  simp only [issue, bind_eq_ok, Certificate.ofOctets_eq_ok] at h
  obtain ⟨t, ht, b, hb, signature, hsignature, hc⟩ := h
  obtain ⟨halgorithm, hkey, hsubject, hextensions⟩ := tbs_eq_ok ht
  rw [hnone, List.nil_append] at hextensions
  obtain ⟨es, hcurrent⟩ := t.current_of_body hb (by rw [hextensions]; exact List.cons_ne_nil _ _)
  obtain ⟨-, -, -, hname, -, -, -, hnarrowed⟩ := TbsCertificate.body_eq_ok hb
  rw [halgorithm, hkey] at hcurrent
  have hes : es.map EncodedExtension.extension = r.implied := by
    rw [hcurrent.extensions, hextensions] at hnarrowed
    exact (Extension.eq_iff_of_narrowed hnarrowed).mpr Request.arcs_of_implied
  have hraw : c.rawExtensions = r.implied := by
    rw [Certificate.rawExtensions, Certificate.extensions_of_octets hcurrent hc.symm]
    exact hes
  have hbody : ∃ v : Value, b.octets = v.octets :=
    ⟨Value.ofOctet Tag.sequence _, by
      rw [Certificate.Body.octets_eq hcurrent, Value.octets_ofOctet (by decide)]⟩
  have hlayout : Certificate.Layout.octets ⟨b, i.key.signatureAlgorithm.algorithm.octets,
      Write.wholeBits signature⟩ =
        Signed.octets ⟨b.octets, i.key.signatureAlgorithm.algorithm, signature⟩ := rfl
  have hsigned : c.signed = .ok ⟨b.octets, i.key.signatureAlgorithm.algorithm, signature⟩ :=
    Certificate.signed_eq_ok.mpr ⟨hc.symm.trans hlayout,
      Signed.wellFormed_iff.mpr ⟨hbody, i.key.signatureAlgorithm.readable_algorithm⟩⟩
  exact ⟨b, es, signature, hcurrent, hname.trans hsubject, hes, hraw, hsignature, hsigned⟩

/-! ## What is read -/

namespace Answers

variable {b : Certificate.Body} {es : List EncodedExtension} {signature : Bytes}

theorem fields_eq (h : i.Answers r c b es signature) :
    c.fields = if b.octets.length ≤ Limits.default.maxInput
      then .ok (b.values i.key.signatureAlgorithm.algorithm.value r.publicKey.value es)
      else .error (.malformed (.inputTooLong b.octets.length Limits.default.maxInput)) :=
  Certificate.fields_of_signed h.current h.signed

theorem field_eq (h : i.Answers r c b es signature)
    (hlen : b.octets.length ≤ Limits.default.maxInput) {n : Nat} {v : Value}
    (hv : (b.values i.key.signatureAlgorithm.algorithm.value r.publicKey.value es)[n]? = some v) :
    c.field n = .ok v := by
  simp only [Certificate.field, h.fields_eq, if_pos hlen, bind, Except.bind, hv, pure, Except.pure]

/-- A field `n` is only found in a body within the limit. -/
theorem length_le_of_field (h : i.Answers r c b es signature) {n : Nat} {v : Value}
    (hv : c.field n = .ok v) : b.octets.length ≤ Limits.default.maxInput := by
  obtain ⟨vs, hvs, -⟩ := bind_eq_ok.mp hv
  by_contra hlong
  rw [h.fields_eq, if_neg hlong] at hvs
  cases hvs

/-- What stands in the body, an element `v`, is no longer than it. -/
theorem length_octets_le (h : i.Answers r c b es signature) {v : Value}
    (hv : v ∈ b.values i.key.signatureAlgorithm.algorithm.value r.publicKey.value es) :
    v.octets.length ≤ b.octets.length := by
  rw [Certificate.Body.octets_eq h.current]
  exact Nat.le_trans (Write.length_octets_le_values (List.mem_cons_of_mem _ hv))
    (Write.length_le_element Tag.sequence _)

theorem length_value_le (h : i.Answers r c b es signature) {e : EncodedExtension} (he : e ∈ es) :
    e.value.length ≤ b.octets.length := by
  have hlast := h.length_octets_le (v := Value.ofOctet (Tag.contextOctet 3 true)
    (EncodedExtension.listOctets es)) (by simp [Certificate.Body.values])
  have hcontent := Value.length_content_le (Value.ofOctet (Tag.contextOctet 3 true)
    (EncodedExtension.listOctets es))
  rw [Value.content_ofOctet, EncodedExtension.listOctets_eq] at hcontent
  have hlist := Write.length_le_element Tag.sequence
    (Write.values (es.map EncodedExtension.written))
  have hone := Write.length_octets_le_values
    (List.mem_map_of_mem (f := EncodedExtension.written) he)
  have hparts := Value.length_content_le e.written
  have hvalue := Write.length_le_element Tag.octetString e.value
  have hwritten : e.written.content.length = (Write.element Tag.oid e.id).length +
      ((if e.critical then Write.boolean true else []).length +
        (Write.octetString e.value).length) := by
    simp [EncodedExtension.written, Value.content_ofOctet, EncodedExtension.contentOf]
  rw [Write.octetString] at hwritten
  rw [EncodedExtension.listOctets_eq] at hlast
  omega

/-- The purposes of `r` are within the limit if the body is. -/
theorem length_purposes_le (h : i.Answers r c b es signature)
    (hlen : b.octets.length ≤ Limits.default.maxInput) :
    r.purposesExtension.value.length ≤ Limits.default.maxInput := by
  by_cases hnone : r.purposes = []
  · unfold Request.purposesExtension
    rw [hnone]
    decide
  · have hmem : r.purposesExtension ∈ r.implied := by simp [Request.implied, hnone]
    rw [← h.extensions] at hmem
    obtain ⟨e, he, hvalue⟩ := List.mem_map.mp hmem
    rw [← hvalue]
    exact Nat.le_trans (h.length_value_le he) hlen

theorem subject_eq (h : i.Answers r c b es signature)
    (hlen : b.octets.length ≤ Limits.default.maxInput) :
    ∃ octets, c.subject = .ok ⟨r.subject.relativeNames, octets⟩ := by
  have hfield : c.field 4 = .ok b.subject.value := h.field_eq hlen rfl
  have hoctets := h.length_octets_le (v := b.subject.value) (by simp [Certificate.Body.values])
  rw [h.subject, NameFields.relativeNames_eq, EncodedName.value_ofRelativeNames] at hfield hoctets
  have hframed : (Name.written (r.subject.entries.map NameFields.assertion).reverse).Framed :=
    Value.framed_of_length (Nat.lt_of_le_of_lt (Nat.le_trans hoctets hlen) (by decide))
  have hname := Name.ofValue_written hframed (by
    rw [List.length_reverse, List.length_map]
    exact r.subject.length_entries_le)
  rw [Certificate.subject, hfield, NameFields.relativeNames_eq]
  exact ⟨_, hname⟩

theorem publicKey_eq (h : i.Answers r c b es signature)
    (hlen : b.octets.length ≤ Limits.default.maxInput) :
    c.publicKey = PublicKey.ofOctets r.publicKey.octets := by
  have hfield : c.field 5 = .ok r.publicKey.value := h.field_eq hlen rfl
  have hoctets := h.length_octets_le (v := r.publicKey.value) (by simp [Certificate.Body.values])
  rw [PublicKey.octets_value] at hoctets
  rw [Certificate.publicKey, hfield, PublicKey.ofOctets_of_length (Nat.le_trans hoctets hlen)]
  rfl

/-- The request `r` is taken from the certificate again exactly within the limits of readers. -/
theorem request_eq_ok (h : i.Answers r c b es signature) :
    c.request = .ok ⟨r.subject, r.publicKey, r.purposes, r.isAuthority, []⟩ ↔
      b.octets.length ≤ Limits.default.maxInput ∧
        r.purposes.length ≤ Limits.default.maxElements ∧ r.publicKey.Readable := by
  simp only [Certificate.request, bind_eq_ok, pure_eq_ok, Request.mk.injEq]
  constructor
  · rintro ⟨_, hpurposes, _, -, name, hsubject, key, hkey, -, rfl, rfl, -, -⟩
    obtain ⟨_, hfield, -⟩ := bind_eq_ok.mp hkey
    have hlen := h.length_le_of_field hfield
    rw [h.publicKey_eq hlen] at hkey
    exact ⟨hlen, (Certificate.purposes_eq_ok h.rawExtensions (h.length_purposes_le hlen)).mp
      hpurposes, PublicKey.ofOctets_octets_eq_ok.mp hkey⟩
  · rintro ⟨hlen, hcount, hreadable⟩
    obtain ⟨octets, hsubject⟩ := h.subject_eq hlen
    have hpurposes := (Certificate.purposes_eq_ok h.rawExtensions
      (h.length_purposes_le hlen)).mpr hcount
    have hkey := (h.publicKey_eq hlen).trans (PublicKey.ofOctets_octets_eq_ok.mpr hreadable)
    exact ⟨_, hpurposes, _, Certificate.isAuthority_eq h.rawExtensions, _, hsubject, _, hkey,
      NameFields.ofName_relativeNames r.subject octets, rfl, rfl, rfl, trivial⟩

end Answers

/-- **An issued certificate carries its request.** From a certificate `c` for a request `r` without
extensions of its own the same `r` is taken again, fields of the subject, purposes and their order
included, exactly where the signed body is within the limit of decoders, the purposes are no more
than decoders take from one list, and the key is one that readers take (`Readable`). The certificate
limits the uses of its key exactly where `r` is for an authority or lists a purpose; the bits that
are set are those of the uses that these call for and no others. The signature verifies with the key
of the issuer `i`, if that verifies what it signs (`Genuine`). -/
theorem issue_carries_request (h : i.issue serial notBefore notAfter r = .ok c)
    (hnone : r.extensions = []) :
    (∃ s, c.signed = .ok s ∧
      (c.request = .ok r ↔
        s.body.length ≤ Limits.default.maxInput ∧
          r.purposes.length ≤ Limits.default.maxElements ∧ r.publicKey.Readable)) ∧
    (∃ usage, c.keyUsage? = .ok usage ∧
      (usage = none ↔ r.isAuthority = false ∧ r.purposes = []) ∧
      ∀ t ∈ usage, ∃ bits, t = .keyUsage bits ∧ ∀ n, bits.getD n false = true ↔
        (r.isAuthority = true ∧ (n = KeyUse.keyCertSign.index ∨ n = KeyUse.crlSign.index)) ∨
        (n = KeyUse.keyEncipherment.index ∧
          ∃ p ∈ r.purposes, p = .clientAuth ∨ p = .serverAuth ∨ p = .emailProtection) ∨
        (n = KeyUse.digitalSignature.index ∧
          ∃ p ∈ r.purposes, p = .codeSigning ∨ p = .timeStamping ∨ p = .ocspSigning)) ∧
    (i.key.Genuine → c.verify i.key.publicKey = .ok true) := by
  obtain ⟨b, es, signature, hanswers⟩ := answers_of_issue h hnone
  refine ⟨⟨_, hanswers.signed, ?_⟩, ⟨_, Certificate.keyUsage?_eq hanswers.rawExtensions, ?_, ?_⟩,
    fun hkey => ?_⟩
  · have hrequest : r = ⟨r.subject, r.publicKey, r.purposes, r.isAuthority, []⟩ := by
      rw [← hnone]
    rw [hrequest]
    exact hanswers.request_eq_ok
  · rw [← Request.uses_eq_nil]
    split <;> simp_all
  · intro t ht
    split at ht
    · cases ht
    · cases ht
      refine ⟨_, rfl, fun n => ?_⟩
      rw [BitString.getD_trim, KeyUse.getD_bits, r.exists_uses_iff]
  · rw [Certificate.verify_of_signed hanswers.signed]
    exact Signed.verify_signed hkey hanswers.sign

/-- A request for an authority, with the purpose `clientAuth` listed twice. -/
def sampleRequest : Request :=
  ⟨⟨"Leaf, \"+x\"", some "DE", none, none, none, some "#1"⟩, TbsCertificate.sampleKey,
    [.clientAuth, .codeSigning, .clientAuth], true, []⟩

/-- `issue_carries_request` at `sampleRequest`: it comes back, and the key may sign certificates. -/
theorem exists_issue_carries_sample :
    ∃ c, namedIssuer.issue 1 ⟨1717200000, 0, 0⟩ ⟨1717286400, 0, 0⟩ sampleRequest = .ok c ∧
      c.request = .ok sampleRequest ∧ c.verify namedIssuer.key.publicKey = .ok true ∧
      ∃ bits, c.keyUsage? = .ok (some (.keyUsage bits)) ∧
        bits.getD KeyUse.keyCertSign.index false = true := by
  obtain ⟨c, hc, hlen⟩ := exists_of_map_toOption
    (x := namedIssuer.issue 1 ⟨1717200000, 0, 0⟩ ⟨1717286400, 0, 0⟩ sampleRequest)
    (f := fun c => c.signed.toOption.all (·.body.length ≤ Limits.default.maxInput)) (b := true)
    (by decide +kernel)
  obtain ⟨⟨s, hs, hrequest⟩, ⟨usage, husage, hnone, hbits⟩, hverify⟩ := issue_carries_request hc rfl
  rw [hs] at hlen
  refine ⟨c, hc, hrequest.mpr ⟨of_decide_eq_true hlen, by decide, trivial⟩,
    hverify (PrivateKey.genuine_rsa _), ?_⟩
  cases usage with
  | none => cases (hnone.mp rfl).1
  | some t =>
    obtain ⟨bits, rfl, hset⟩ := hbits t rfl
    exact ⟨bits, husage, (hset _).mpr (.inl ⟨rfl, .inl rfl⟩)⟩

/-- An RSA key of 4484 bits, the product of two primes of Mersenne, `2 ^ 2203 - 1` and
`2 ^ 2281 - 1`. -/
def longKey : Rsa.PublicKey :=
  ⟨(1 <<< 2203 - 1) * (1 <<< 2281 - 1), 65537, by decide +kernel⟩

/-- Nothing is taken from a certificate for `longKey`, which is longer than readers take. -/
theorem exists_issue_long_key :
    ∃ c, namedIssuer.issue 1 ⟨1717200000, 0, 0⟩ ⟨1717286400, 0, 0⟩
        { sampleRequest with publicKey := .rsa longKey } = .ok c ∧
      ∀ r, c.request ≠ .ok r := by
  obtain ⟨c, hc, hnone⟩ := exists_of_map_toOption
    (x := namedIssuer.issue 1 ⟨1717200000, 0, 0⟩ ⟨1717286400, 0, 0⟩
      { sampleRequest with publicKey := .rsa longKey })
    (f := fun c => c.request.toOption.isNone) (b := true) (by decide +kernel)
  refine ⟨c, hc, fun r hr => ?_⟩
  rw [hr] at hnone
  cases hnone

end Issuer

end Pkix
