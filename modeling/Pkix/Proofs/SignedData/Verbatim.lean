import Pkix.Proofs.SignedData.Grammars

/-!
# Every octet counts

Signed data that is read in the current grammar is the encodings of its fields and nothing else,
each set in the order in which it is stored.

* `SignedData.spelled`: the fields of signed data in the order in which they are given.
* `SignedData.exists_spelled_of_ofValue`: the current grammar reads nothing but fields.
* `SignedData.ofOctets_append`: octets after what was read are refused, in either grammar.
* `SignedData.every_octet_counts`: what follows for whole encodings.
-/

namespace Pkix.SignedData

open Der

variable {b : Bytes} {limits : Limits} {g : Grammar} {d : SignedData}

/-- The fields of signed data as they are given, with a set of `certificates` or revocation lists
(`crls`) only where there is one. -/
def spelled (version : UInt32) (digests : List Bytes) (content : ContentInfo)
    (certificates crls : Option (List Bytes)) (signers : List Bytes) : Bytes :=
  Write.word version ++ (Write.element Tag.set digests.flatten ++ (content.octets ++
    (optionalField certificatesTag certificates ++ (optionalField crlsTag crls ++
      Write.element Tag.set signers.flatten))))

/-! ## Nothing but fields -/

/-- Things `xs` that are read from the values of a field `o` are there exactly where the field
is. -/
theorem exists_field_of_map {α : Type} {f : α → Bytes} {o : Option (List Value)} {xs : List α}
    (h : (o.getD []).map Value.octets = xs.map f) :
    ∃ o' : Option (List α), o'.getD [] = xs ∧
      o.map (List.map Value.octets) = o'.map (List.map f) := by
  cases o with
  | none =>
    have hxs : xs = [] := by simpa using h.symm
    exact ⟨none, hxs.symm, rfl⟩
  | some vs => exact ⟨some xs, rfl, congrArg some h⟩

/-- **One value.** What the `.current` grammar reads from `v` as signed data is its fields, each set
as it is stored. -/
theorem exists_spelled_of_ofValue {v : Value} (h : ofValue limits .current v = .ok d) :
    ∃ (version : UInt32) (certificates : Option (List Certificate)) (crls : Option (List Crl)),
      d.version = some version ∧
      certificates.getD [] = d.certificates ∧ crls.getD [] = d.crls ∧
      v = Value.ofOctet Tag.sequence (spelled version (d.digestAlgorithms.map Algorithm.octets)
        d.content (certificates.map (List.map Certificate.octets))
        (crls.map (List.map Crl.octets)) (d.signers.map fun s => s.value.octets)) := by
  simp only [ofValue, ite_error_eq_ok, bind_eq_ok, pure_eq_ok, Prod.exists, Prod.mk.injEq,
    Cursor.start_eq_ok, Cursor.word_eq_ok, Cursor.setOf_eq_ok, Cursor.finish_eq_ok, Value.is_iff,
    ContentInfo.read_current_eq_ok, readAids] at h
  obtain ⟨hseq, _, ⟨-, rfl⟩, version, c₁, hversion, digests, c₂, ⟨hdigests, hdlen, -⟩, as, has,
    content, c₃, ⟨hcontent, -⟩, cs, rs, c₄, ⟨_, k₁, hcs, _, k₂, hrs, rfl, rfl, rfl⟩, ss, c₅,
    ⟨hsigners, hslen, -⟩, -, hrest, certificates, hcertificates, crls, hcrls, signers, hss,
    rfl⟩ := h
  obtain ⟨⟨_, rfl, hcstep⟩, -⟩ := readOptionalSet_ok (by decide) hcs
  obtain ⟨⟨_, rfl, hrstep⟩, -⟩ := readOptionalSet_ok (by decide) hrs
  obtain ⟨rfl, -⟩ := (mapM_algorithms (Write.framed_of_values hdlen)).mp has
  obtain ⟨rfl, -⟩ := (mapM_signers (Write.framed_of_values hslen)).mp hss
  obtain ⟨certificates', hcget, hcmap⟩ := exists_field_of_map (mapM_certificates.mp hcertificates)
  obtain ⟨crls', hrget, hrmap⟩ := exists_field_of_map (mapM_crls.mp hcrls)
  refine ⟨version, certificates', crls', rfl, hcget, hrget, ?_⟩
  rw [hseq, ← Cursor.rest_ofBuffer v.content limits, hversion.rest, hdigests.rest, hcontent.rest,
    hcstep.rest, hrstep.rest, hsigners.rest, hrest, hcmap, hrmap, List.append_nil,
    Write.values_eq_flatten, Write.values_eq_flatten, List.map_map, List.map_map]
  simp only [spelled, Function.comp_def, Algorithm.octets_value]

/-! ## Whole encodings -/

/-- Octets `b` that are read in the `.current` grammar are one content. -/
theorem exists_wrap_of_readIn (htype : ContentInfo.leadingType? b = some Oid.signedData)
    (h : readIn b limits .current = .ok d) :
    ∃ v, b = ContentInfo.octets ⟨Oid.signedData, some v⟩ ∧ ofValue limits .current v = .ok d := by
  obtain ⟨-, info, c, hread, hrest, hinfo⟩ := readIn_eq_ok.mp h
  rw [ContentInfo.leadingType?_of_read hread, Option.some.injEq] at htype
  obtain ⟨v, hv, h⟩ := ofInfo_signedData htype hinfo
  obtain ⟨hstep, -⟩ := ContentInfo.read_current_eq_ok.mp hread
  have hb := hstep.rest
  rw [Cursor.rest_ofBuffer, hrest, List.append_nil] at hb
  refine ⟨v, ?_, h⟩
  rw [hb, ← htype, ← hv]

/-- Data of the `.current` grammar was read in it. -/
theorem readIn_current_of_ofOctets (htype : ContentInfo.leadingType? b = some Oid.signedData)
    (h : ofOctets b limits = .ok d) (hgrammar : d.grammar = .current) :
    readIn b limits .current = .ok d := by
  rw [ofOctets_eq_readEither] at h
  obtain h | ⟨-, h⟩ := readEither_eq_ok.mp h
  · exact h
  · obtain ⟨v, hv⟩ := exists_ofValue_of_readIn htype h
    rw [grammar_of_ofValue hv] at hgrammar
    cases hgrammar

/-- Whatever is read, the `.legacy` grammar finds one content in it, and nothing after that. -/
theorem read_legacy_of_ofOctets (h : ofOctets b limits = .ok d) :
    ∃ info c, ContentInfo.read (Cursor.ofBuffer b limits) .legacy = .ok (info, c) ∧
      c.rest = [] := by
  rw [ofOctets_eq_readEither] at h
  obtain h | ⟨-, h⟩ := readEither_eq_ok.mp h
  · obtain ⟨-, info, c, hread, hrest, -⟩ := readIn_eq_ok.mp h
    exact ⟨info, c, ContentInfo.read_legacy_of_current hread, hrest⟩
  · obtain ⟨-, info, c, hread, hrest, -⟩ := readIn_eq_ok.mp h
    exact ⟨info, c, hread, hrest⟩

/-- Where octets are left after the content (`c.rest`), an attempt is refused for them. -/
theorem readIn_of_rest {info : ContentInfo} {c : Cursor} (hlen : b.length ≤ limits.maxInput)
    (hread : ContentInfo.read (Cursor.ofBuffer b limits) g = .ok (info, c)) (hrest : c.rest ≠ []) :
    readIn b limits g = .error (.malformed (.trailing c.rest.length c.position)) := by
  have hstart := Cursor.start_eq_ok.mpr ⟨hlen, rfl⟩
  have hempty : c.isEmpty = false := by
    rw [Cursor.isEmpty, List.isEmpty_eq_false_iff]
    exact hrest
  have hfinish : c.finish = .error (.malformed (.trailing c.rest.length c.position)) := by
    rw [Cursor.finish, hempty]
    rfl
  simp only [readIn, read, hstart, hread, hfinish, bind, Except.bind]

/-- The `.current` grammar finds the end where the `.legacy` one does. -/
theorem rest_of_readIn_current {info : ContentInfo} {c : Cursor}
    (hread : ContentInfo.read (Cursor.ofBuffer b limits) .legacy = .ok (info, c))
    (h : readIn b limits .current = .ok d) : c.rest = [] := by
  obtain ⟨-, info', c', hread', hrest, -⟩ := readIn_eq_ok.mp h
  have hsame := ContentInfo.read_legacy_of_current hread'
  rw [hread] at hsame
  cases hsame
  exact hrest

/-- **Nothing after the end.** Octets `x` after what was read are refused, for their number or
because the whole is too long now. -/
theorem ofOctets_append {x : Bytes} (h : ofOctets b limits = .ok d) (hx : x ≠ []) :
    ofOctets (b ++ x) limits = .error (.malformed
      (if limits.maxInput < (b ++ x).length then
        .inputTooLong (b ++ x).length limits.maxInput
      else .trailing x.length b.length)) := by
  obtain ⟨info, c, hread, hrest⟩ := read_legacy_of_ofOctets h
  obtain ⟨e, hstep, hread⟩ := ContentInfo.exists_read_of_step hread
  obtain rfl : b = e := by
    have hb := hstep.rest
    rwa [hrest, List.append_nil] at hb
  obtain ⟨c', hstep', rfl, -⟩ := Cursor.exists_step (Cursor.rest_ofBuffer (b ++ x) limits)
  have hposition : c'.position = b.length := hstep'.position.trans (Nat.zero_add _)
  rw [ofOctets_eq_readEither]
  split
  · rename_i hlong
    simp only [readEither, readIn, Cursor.start, Limits.check, if_pos hlong, bind, Except.bind]
  · rename_i hshort
    have hlegacy := readIn_of_rest (Nat.le_of_not_lt hshort) (hread hstep') hx
    unfold readEither
    split
    · rename_i d' hcurrent
      exact absurd (rest_of_readIn_current (hread hstep') hcurrent) hx
    · rw [hlegacy, hposition]

/-- An optional set `o` in canonical order is written as it is stored, unless it is there but
empty. -/
theorem optionalSet_of_sorted {α : Type} {f : α → Bytes} {o : Option (List α)} (tag : UInt8)
    (ho : o ≠ some []) (hsorted : SetOrder.Sorted ((o.getD []).map f)) :
    optionalSet tag ((o.getD []).map f) = optionalField tag (o.map (List.map f)) := by
  cases o with
  | none => rfl
  | some xs =>
    have hxs : xs ≠ [] := fun h => ho (congrArg some h)
    rw [optionalSet, if_neg (by simpa using hxs), Write.setOf, SetOrder.sort_of_sorted hsorted]
    rfl

/-- **Every octet counts.** Octets `b` that are read as signed data in the `.current` grammar are
the encodings of its fields, each set in the order in which it is stored and each optional set
either left out or there, be it empty. So no octets may follow. If all sets are in canonical order
and none is there but empty, then `b` is what is written for the data. -/
theorem every_octet_counts (htype : ContentInfo.leadingType? b = some Oid.signedData)
    (h : ofOctets b .default = .ok d) (hgrammar : d.grammar = .current) :
    ∃ (version : UInt32) (certificates : Option (List Certificate)) (crls : Option (List Crl))
        (signers : List Bytes),
      d.version = some version ∧ certificates.getD [] = d.certificates ∧ crls.getD [] = d.crls ∧
      d.signers.mapM Signer.octets = .ok signers ∧
      b = wrap (spelled version (d.digestAlgorithms.map Algorithm.octets) d.content
        (certificates.map (List.map Certificate.octets)) (crls.map (List.map Crl.octets))
        signers) ∧
      (∀ x, x ≠ [] → ofOctets (b ++ x) .default = .error (.malformed
        (if Limits.default.maxInput < (b ++ x).length then
          .inputTooLong (b ++ x).length Limits.default.maxInput
        else .trailing x.length b.length))) ∧
      (SetOrder.Sorted (d.digestAlgorithms.map Algorithm.octets) →
        SetOrder.Sorted (d.certificates.map Certificate.octets) →
        SetOrder.Sorted (d.crls.map Crl.octets) → SetOrder.Sorted signers →
        certificates ≠ some [] → crls ≠ some [] → d.octets = .ok b) := by
  obtain ⟨hread, hbounded⟩ := readable_of_ofOctets h
  have hwrite := writable_of_bounded hbounded
  obtain ⟨v, hb, hv⟩ := exists_wrap_of_readIn htype (readIn_current_of_ofOctets htype h hgrammar)
  obtain ⟨version, certificates, crls, hversion, hcertificates, hcrls, rfl⟩ :=
    exists_spelled_of_ofValue hv
  refine ⟨version, certificates, crls, _, hversion, hcertificates, hcrls, ?_, hb,
    fun x hx => ofOctets_append h hx, ?_⟩
  · exact (mapM_eq_ok_of_total fun s hs _ => Signer.octets_eq_ok (hread.hasSets s hs)).mpr
      ⟨hwrite, rfl⟩
  · intro hdsorted hcsorted hrsorted hssorted hcempty hrempty
    refine (octets_eq_ok hread.hasSets).mpr ⟨hwrite, ?_⟩
    rw [← hcertificates] at hcsorted
    rw [← hcrls] at hrsorted
    rw [hb, encoding_eq_wrap, body, hversion, ← hcertificates, ← hcrls,
      optionalSet_of_sorted certificatesTag hcempty hcsorted,
      optionalSet_of_sorted crlsTag hrempty hrsorted, Write.setOf, Write.setOf,
      SetOrder.sort_of_sorted hdsorted, SetOrder.sort_of_sorted hssorted]
    rfl

/-- `every_octet_counts` at `currentSample`, which is spelled without revocation lists, is written
as it stands, and is refused with one more octet. -/
theorem exists_every_octet_counts_currentSample :
    ContentInfo.leadingType? currentSample = some Oid.signedData ∧
    ∃ d, ofOctets currentSample .default = .ok d ∧ d.grammar = .current ∧
      ofOctets (currentSample ++ [0]) .default =
        .error (.malformed (.trailing 1 currentSample.length)) ∧
      d.octets = .ok currentSample := by
  have htype : ContentInfo.leadingType? currentSample = some Oid.signedData := by decide +kernel
  obtain ⟨d, hd, hfields⟩ := exists_of_map_toOption (x := ofOctets currentSample .default)
    (f := fun d => (d.grammar, d.version, d.digestAlgorithms.map Algorithm.octets, d.content))
    (b := (.current, some 1, [(Algorithm.plain Oid.sha256).octets], ContentInfo.data [1, 2, 3]))
    (by decide +kernel)
  obtain ⟨d', hd', hsets⟩ := exists_of_map_toOption (x := ofOctets currentSample .default)
    (f := fun d => (d.certificates.map Certificate.octets, d.crls.map Crl.octets,
      (d.signers.mapM Signer.octets).toOption))
    (b := ([plainCertificate 1, plainCertificate 2], [],
      some [plainSigner [] 1, plainSigner [] 2]))
    (by decide +kernel)
  obtain rfl := Except.ok.inj (hd.symm.trans hd')
  simp only [Prod.mk.injEq, toOption_eq_some] at hsets hfields
  obtain ⟨hgrammar, hversion, hdigests, hcontent⟩ := hfields
  obtain ⟨hcs, hrs, hss⟩ := hsets
  obtain ⟨version, certificates, crls, signers, hversion', hcertificates, hcrls, hsigners, hb,
    happend, hoctets⟩ := every_octet_counts htype hd hgrammar
  rw [hversion, Option.some.injEq] at hversion'
  rw [hss, Except.ok.injEq] at hsigners
  rw [← hcertificates] at hcs
  rw [← hversion', ← hsigners, hdigests, hcontent] at hb
  have hcempty : certificates ≠ some [] := by
    rintro rfl
    cases hcs
  -- an empty set of revocation lists would take two octets more
  have hrempty : crls ≠ some [] := by
    rintro rfl
    cases certificates with
    | none => cases hcs
    | some cs =>
      rw [Option.map_some, show cs.map Certificate.octets = _ from hcs] at hb
      exact absurd hb (by decide +kernel)
  refine ⟨htype, d, hd, hgrammar, ?_, ?_⟩
  · rw [happend [0] (by decide), if_neg (by decide +kernel)]
    rfl
  · rw [← hcertificates, ← hsigners] at hoctets
    rw [hdigests, hcs, hrs] at hoctets
    exact hoctets (by decide +kernel) (by decide +kernel) (by decide +kernel) (by decide +kernel)
      hcempty hrempty

end Pkix.SignedData
