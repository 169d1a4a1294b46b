import Pkix.Proofs.Dates
import Pkix.Proofs.Extension.Content
import Pkix.Proofs.Issuer.Basic

/-!
# A revocation list says what was asked for

The octets of a revocation list are put together by hand and taken apart by three readers: that of
the whole structure, the one that looks for a single field, and that of the reason in an entry.

* `Reason.reported`: the reason of an entry as it is read back.
* `Issuer.reason?_of_optional`: entries say what they were written with.
* `Issuer.revoked_of_mapM`: so do lists of them.
* `Issuer.issuer_of_signed`: the name of the issuer is found.
* `Issuer.revoke_says`: the revocation list as a whole.
* `Issuer.issuer_of_bareIssuer`: no name is found where an issuer has none that can be read.
-/

namespace Pkix

open Der

/-- A `reason` as it is read back: none is given where it is unspecified. -/
def Reason.reported (reason : Reason) : Option Reason :=
  if reason = .unspecified then none else some reason

namespace Issuer

variable {i : Issuer} {revoked : List (Int × Reason)} {this : Time} {next : Option Time} {c : Crl}
  {reason : Reason}

/-! ## Entries -/

/-- The `reason` in an extension is read. -/
theorem ofExtension_reasonExtension (h : reason ≠ .unspecified) :
    TypedExtension.ofExtension (reasonExtension reason) = .ok (.reasonCode reason) := by
  have hvalue : (Content.reasonCode reason.code).value = .ok (Write.enumerated reason.code) := by
    cases reason <;> first | rfl | exact absurd rfl h
  have hlen : (Write.enumerated reason.code).length ≤ Limits.default.maxInput := by
    cases reason <;> decide +kernel
  have hregular : (Content.reasonCode reason.code).Regular := nofun
  have hread : Content.decode Oid.reasonCode (Write.enumerated reason.code) =
      .ok (.reasonCode reason.code) :=
    Content.decode_value hregular hvalue hlen fun _ h => Content.noConfusion h
  simp only [TypedExtension.ofExtension, reasonExtension, hread, bind, Except.bind]
  rfl

theorem ofCode_code (reason : Reason) : Reason.ofCode reason.code = reason := by
  cases reason <;> decide

open Reader in
/-- The extension of an entry that is read is the `reason` that was written. -/
theorem extensions_of_optional {o : Option (List EncodedExtension)} (h : reason ≠ .unspecified)
    (hlen : (reasonOctets reason).length < UInt32.size)
    (hread : Reader.optional (· == Tag.sequence) Parts.readExtensions (reasonOctets reason) =
      some (o, [])) :
    ∃ e, o = some [e] ∧ e.extension = reasonExtension reason := by
  let v := Value.ofOctet Tag.sequence (EncodedExtension.contentOf Oid.reasonCode.content false
    (Write.enumerated reason.code))
  have hv : (reasonExtension reason).octets = Write.values [v] := by
    rw [Write.values_cons, Value.octets_ofOctet (by decide)]
    simp [Extension.octets, reasonExtension, EncodedExtension.contentOf, Write.oid, Write.values]
  rw [reasonOctets, if_neg h, hv, ← List.append_nil (Write.element _ _)] at hread hlen
  have hvalues := (Write.length_lt_of_element_append hlen).1
  obtain ⟨⟨es, rfl, hes⟩, -⟩ := of_optional_element (by decide) (by decide) hvalues hread
  have hframed := Write.framed_of_values hvalues
  have hlist := mapM_of_listOf hframed hes
  simp only [List.mapM_cons, List.mapM_nil, bind, Option.bind_eq_some_iff, pure,
    Option.some.injEq] at hlist
  obtain ⟨e, he, _, rfl, rfl⟩ := hlist
  obtain ⟨hid, hcritical, hvalue⟩ := EncodedExtension.eq_of_ofValue? (hframed v (by simp)) he
  have harcs : ∀ a ∈ Oid.reasonCode.arcs, a < UInt32.size := by decide
  exact ⟨e, rfl, EncodedExtension.extension_eq hid hcritical hvalue harcs⟩

/-- An entry `e` that is read has the `reason` that was written. -/
theorem reason?_of_optional {e : Crl.Entry} (hlen : (reasonOctets reason).length < UInt32.size)
    (hread : Reader.optional (· == Tag.sequence) Parts.readExtensions (reasonOctets reason) =
      some (e.extensions, [])) : e.reason? = .ok reason.reported := by
  by_cases h : reason = .unspecified
  · rw [reasonOctets, if_pos h] at hread
    obtain ⟨hnone, -⟩ := Reader.of_optional_other (by simp) hread
    simp [Crl.Entry.reason?, hnone, Reason.reported, h]
  · obtain ⟨x, hx, hextension⟩ := extensions_of_optional h hlen hread
    have hfind : ([x].map EncodedExtension.extension).find? (·.id == Oid.reasonCode) =
        some (reasonExtension reason) := by
      rw [List.map_singleton, hextension]
      exact List.find?_cons_of_pos (beq_self_eq_true Oid.reasonCode)
    simp only [Crl.Entry.reason?, hx, Option.getD_some, hfind, ofExtension_reasonExtension h,
      Reason.reported, if_neg h, bind, Except.bind]
    exact congrArg (Except.ok ∘ some) (ofCode_code reason)

/-- Entries `es` that are read say what they were written with, one by one. -/
theorem revoked_of_mapM {content : Bytes} {es : List Crl.Entry}
    (hcontent : this.contentAs this.form = .ok content)
    (hframed : ∀ v ∈ entryValues (Write.element (EncodedTime.tag this.form) content) revoked,
      v.Framed)
    (h : (entryValues (Write.element (EncodedTime.tag this.form) content) revoked).mapM
      Crl.Entry.ofValue? = some es) :
    (es.mapM fun e => return (e.serial, ← e.reason?)) =
      Except.ok (revoked.map fun x => (x.1, x.2.reported)) := by
  induction revoked generalizing es with
  | nil =>
    cases h
    rfl
  | cons x revoked ih =>
    simp only [entryValues, List.map_cons, List.mapM_cons, bind, Option.bind_eq_some_iff, pure,
      Option.some.injEq] at h
    obtain ⟨e, he, es, hes, rfl⟩ := h
    obtain ⟨hx, hrest⟩ := List.forall_mem_cons.mp hframed
    obtain ⟨hserial, -, hlen, hreason⟩ := fields_of_entry hcontent hx he
    rw [List.mapM_cons, ih hrest hes, reason?_of_optional hlen hreason, hserial]
    rfl

/-! ## The name of the issuer -/

/-- The name of the issuer `i` is found behind the version and the algorithm. -/
theorem issuer_of_signed {updated after entries signature : Bytes}
    (hlen : (i.fields updated after entries).length < UInt32.size)
    (h : c.signed = .ok ⟨Write.element Tag.sequence (i.fields updated after entries),
      i.key.signatureAlgorithm.algorithm, signature⟩) :
    c.issuer = Name.ofValue .default i.name.value := by
  have hall : (Cursor.ofBuffer (Write.element Tag.sequence (i.fields updated after entries))
      .default).rest = Write.element Tag.sequence (i.fields updated after entries) ++ [] := by
    rw [Cursor.rest_ofBuffer, List.append_nil]
  obtain ⟨c₀, hbody, -⟩ := Cursor.exists_step hall
  obtain ⟨c₁, hversion, hrest, -⟩ :=
    Cursor.exists_step (Cursor.rest_ofBuffer (i.fields updated after entries) .default)
  obtain ⟨c₂, halgorithm, hrest, -⟩ := Cursor.exists_step hrest
  obtain ⟨c₃, hname, -⟩ := Cursor.exists_step hrest
  -- the parts are short enough to be read
  have hparts := hlen
  rw [fields, List.length_append, List.length_append, List.length_append] at hparts
  have halgorithmLen := Write.length_le_element Tag.sequence
    i.key.signatureAlgorithm.algorithm.content
  rw [← Algorithm.octets_eq] at halgorithmLen
  have hnameLen := Write.length_le_element Tag.sequence i.name.value.content
  have hnameFramed : i.name.value.Framed := by
    change _ ≤ i.name.octets.length at hnameLen
    exact Nat.lt_of_le_of_lt hnameLen (by omega)
  have hentered : (Cursor.ofBuffer (Write.element Tag.sequence (i.fields updated after entries))
      .default).enter Tag.sequence = .ok (Cursor.ofBuffer (i.fields updated after entries) .default,
        c₀) := (Cursor.enter_eq_ok (by decide)).mpr ⟨_, rfl, hbody, hlen⟩
  have hskipped : Crl.skipVersion (Cursor.ofBuffer (i.fields updated after entries) .default) =
      .ok c₁ := by
    have hword : (Value.ofOctet Tag.integer (BigEndian.ofInt 1)).octets = Write.word 1 :=
      Value.octets_ofOctet (by decide) _
    have hvalue := (Cursor.value_eq_ok (v := Value.ofOctet Tag.integer (BigEndian.ofInt 1))).mpr
      ⟨hword ▸ hversion, BigEndian.length_ofInt_word 1⟩
    rw [Crl.skipVersion, Cursor.peek_of_step hversion (by decide), if_pos (by decide), hvalue]
    rfl
  have hread := Algorithm.read_eq_ok.mpr ⟨halgorithm, show _ < UInt32.size by omega,
    i.key.signatureAlgorithm.readable_algorithm⟩
  have hexpected : c₂.expect Tag.sequence = .ok (i.name.value, c₃) :=
    (Cursor.expect_eq_ok (by decide)).mpr ⟨rfl, hname, hnameFramed⟩
  simp only [Crl.issuer, h, hentered, hskipped, hread, hexpected, bind, Except.bind]

/-! ## The whole -/

/-- **A revocation list says what was asked for.** The serial numbers and reasons of a revocation
list `c` that is issued are those of `revoked`, in their order and as often as they were listed, and
a reason is given unless it is unspecified. Their number is counted, `c.issuer` looks into the name
as it stands in the issuer `i`, so it is the name that `i.name.name` is, and the signature verifies
with the key of `i`, if that verifies what it signs (`Genuine`). -/
theorem revoke_says (h : i.revoke revoked this next = .ok c) :
    c.revoked =
      .ok (revoked.map fun x => (x.1, if x.2 = .unspecified then none else some x.2)) ∧
    c.count = revoked.length ∧
    c.issuer = Name.ofValue .default i.name.value ∧
    (∀ name, i.name.name = .ok name → c.issuer = .ok name) ∧
    (i.key.Genuine → c.verify i.key.publicKey = .ok true) := by
  obtain ⟨content, after, signature, hcontent, hafter, hsignature, hoctets, hlen, hbody⟩ :=
    fields_of_revoke h
  obtain ⟨-, -, hentries, hframed⟩ := fields_of_body hcontent hafter rfl hlen hbody
  have hrevoked := revoked_of_mapM hcontent hframed hentries
  have hcount : c.count = revoked.length := by
    have := length_of_mapM hrevoked
    rw [List.length_map] at this
    exact this.symm
  have hsigned := Crl.signed_eq_ok.mpr ⟨hoctets, Signed.wellFormed_iff.mpr
    ⟨⟨Value.ofOctet Tag.sequence _, (Value.octets_ofOctet (by decide) _).symm⟩,
      i.key.signatureAlgorithm.readable_algorithm⟩⟩
  have hissuer := issuer_of_signed hlen hsigned
  refine ⟨hrevoked, hcount, hissuer, fun name hname => ?_, fun hkey => ?_⟩
  · rw [hissuer, EncodedName.ofValue_of_name hname]
  · rw [Crl.verify_of_signed hsigned]
    exact Signed.verify_signed hkey hsignature

/-- An issuer with the common name `CA`. -/
def namedIssuer : Issuer :=
  { Attribute.sampleIssuer with
    name := ⟨[[Write.element Tag.sequence (Write.oid Oid.commonName ++
      Write.element Tag.utf8String [0x43, 0x41])]]⟩ }

/-- `revoke_says` at a certificate that is listed twice, and one without a reason. -/
theorem exists_revoke_says_twice :
    ∃ c name, namedIssuer.revoke [(7, .keyCompromise), (-1, .unspecified), (7, .keyCompromise)]
        ⟨1717200000, 0, 0⟩ none = .ok c ∧
      c.revoked = .ok [(7, some .keyCompromise), (-1, none), (7, some .keyCompromise)] ∧
      c.count = 3 ∧ c.issuer = .ok name ∧ name.commonName? = some "CA" ∧
      c.verify namedIssuer.key.publicKey = .ok true := by
  obtain ⟨c, hc, -⟩ := exists_of_map_toOption
    (x := namedIssuer.revoke [(7, .keyCompromise), (-1, .unspecified), (7, .keyCompromise)]
      ⟨1717200000, 0, 0⟩ none) (f := Crl.count) (b := 3) (by decide +kernel)
  obtain ⟨name, hname, htext⟩ := exists_of_map_toOption (x := namedIssuer.name.name)
    (f := Name.commonName?) (b := some "CA") (by decide +kernel)
  obtain ⟨hrevoked, hcount, -, hissuer, hverify⟩ := revoke_says hc
  exact ⟨c, name, hc, hrevoked, hcount, hissuer name hname, htext,
    hverify (PrivateKey.genuine_rsa _)⟩

/-- An issuer whose name, `⟨[[]]⟩`, has a relative name of no assertions. -/
def bareIssuer : Issuer := { Attribute.sampleIssuer with name := ⟨[[]]⟩ }

/-- The name of an issuer is looked into by `Crl.issuer`, not when a list is issued: that of
`bareIssuer` cannot be read, so its list is issued and has no issuer. -/
theorem issuer_of_bareIssuer :
    bareIssuer.name.octets = [0x30, 0x02, 0x31, 0x00] ∧
      ∃ c, bareIssuer.revoke [] ⟨1717200000, 0, 0⟩ none = .ok c ∧
        c.issuer = .error (.malformed .rdnEmpty) := by
  obtain ⟨c, hc, hissuer⟩ := exists_of_map_toOption
    (x := bareIssuer.revoke [] ⟨1717200000, 0, 0⟩ none) (f := fun c => error? c.issuer)
    (b := some (.malformed .rdnEmpty)) (by decide +kernel)
  exact ⟨by decide, c, hc, error?_eq_some.mp hissuer⟩

end Issuer

end Pkix
