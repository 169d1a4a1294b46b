import Pkix.Proofs.Der.Reader
import Pkix.Proofs.Der.SetOrder
import Pkix.Proofs.SignedData.Layout

/-!
# Writing signed data again

Signed data is written in one form, whatever grammar it was read in. What is written is read as the
same data with all sets in canonical order, and that is a fixed point.

* `SignedData.canonical`: the same data, in canonical order and in the current grammar.
* `SignedData.octets_eq_ok`: what is written for signed data.
* `SignedData.Readable`, `SignedData.readable_of_ofOctets`: the rules that data obeys if it was
  read.
* `SignedData.wrap`, `SignedData.ofOctets_wrap_layOut`: fields that were laid out as signed data are
  found again, whatever stands in them.
* `SignedData.ofOctets_encoding`: what is written for readable data is read as its canonical form.
* `SignedData.canonical_of_ofOctets`: what is read from what is written for any data.
-/

namespace Pkix.SignedData

open Der

/-! ## What is written -/

/-- The data `d` in the current grammar, with all sets in canonical order. -/
def canonical (d : SignedData) : SignedData where
  version := some (d.version.getD 1)
  digestAlgorithms := SetOrder.sortBy Algorithm.octets d.digestAlgorithms
  content := d.content
  certificates := SetOrder.sortBy Certificate.octets d.certificates
  crls := SetOrder.sortBy Crl.octets d.crls
  signers := SetOrder.sortBy (fun s => s.value.octets) d.signers
  grammar := .current

/-- What stands inside the SEQUENCE of signed data `d`. -/
def body (d : SignedData) : Bytes :=
  Write.word (d.version.getD 1) ++
    (Write.setOf Tag.set (d.digestAlgorithms.map Algorithm.octets) ++ (d.content.octets ++
      (optionalSet certificatesTag (d.certificates.map Certificate.octets) ++
        (optionalSet crlsTag (d.crls.map Crl.octets) ++
          Write.setOf Tag.set (d.signers.map fun s => s.value.octets)))))

/-- Signed data `d` as a content. -/
def info (d : SignedData) : ContentInfo :=
  ⟨Oid.signedData, some (Value.ofOctet Tag.sequence d.body)⟩

/-- The encoding of signed data `d` whose signers can be written. -/
def encoding (d : SignedData) : Bytes := d.info.octets

/-- What `octets` writes for signed data `d`: its `encoding`, unless some signer cannot be
written. -/
theorem octets_eq_ok {d : SignedData} {b : Bytes} (h : ∀ s ∈ d.signers, s.HasSets) :
    d.octets = .ok b ↔ (∀ s ∈ d.signers, s.Writable) ∧ d.encoding = b := by
  simp only [octets, bind_eq_ok, pure_eq_ok,
    mapM_eq_ok_of_total fun s hs _ => Signer.octets_eq_ok (h s hs)]
  constructor
  · rintro ⟨_, ⟨hwrite, rfl⟩, rfl⟩
    exact ⟨hwrite, by simp [encoding, info, body]⟩
  · rintro ⟨hwrite, rfl⟩
    exact ⟨_, ⟨hwrite, rfl⟩, by simp [encoding, info, body]⟩

/-- The encoding of a content that is signed data with the given `body`. -/
def wrap (body : Bytes) : Bytes :=
  ContentInfo.octets ⟨Oid.signedData, some (Value.ofOctet Tag.sequence body)⟩

theorem encoding_eq_wrap (d : SignedData) : d.encoding = wrap d.body := rfl

/-- What stands before the signers of `d`. -/
def front (d : SignedData) : Bytes :=
  Write.word (d.version.getD 1) ++
    Write.setOf Tag.set (d.digestAlgorithms.map Algorithm.octets) ++ d.content.octets ++
    optionalSet certificatesTag (d.certificates.map Certificate.octets) ++
    optionalSet crlsTag (d.crls.map Crl.octets)

/-- The encoding of `d` with these encodings of `signers`, one after the other. -/
def encodingWith (d : SignedData) (signers : List Bytes) : Bytes :=
  wrap (d.front ++ Write.element Tag.set signers.flatten)

/-- Whatever the signers of `d` are, it is written with their encodings `es` in canonical order. -/
theorem exists_octets_eq {d : SignedData} {b : Bytes} (h : d.octets = .ok b) :
    ∃ es, d.signers.mapM Signer.octets = .ok es ∧ b = d.encodingWith (SetOrder.sort es) := by
  simp only [octets, bind_eq_ok, pure_eq_ok] at h
  obtain ⟨es, hes, rfl⟩ := h
  exact ⟨es, hes, rfl⟩

theorem optionalSet_eq {α : Type} {f : α → Bytes} {xs : List α} {vs : List Value} (tag : UInt8)
    (h : (SetOrder.sortBy f xs).map f = vs.map Value.octets) :
    optionalSet tag (xs.map f) = optionalElements tag vs := by
  have hlen := congrArg List.length h
  rw [List.length_map, List.length_map, SetOrder.length_sortBy] at hlen
  rw [optionalSet, optionalElements, Write.setOf_eq tag h]
  by_cases hvs : vs = []
  · have : xs = [] := by simpa [hvs] using hlen
    simp [hvs, this]
  · have : xs ≠ [] := by
      rintro rfl
      exact hvs (by simpa using hlen.symm)
    simp [hvs, this]

/-- Around any signers, `ss`, the other fields of `d` are laid out in canonical order. -/
theorem exists_front_eq (d : SignedData) : ∃ cs rs : List Value,
    cs.map Value.octets = d.canonical.certificates.map Certificate.octets ∧
    rs.map Value.octets = d.canonical.crls.map Crl.octets ∧
    ∀ ss : List Value, d.front ++ Write.element Tag.set (Write.values ss) =
      layOut (d.version.getD 1) d.content (d.canonical.digestAlgorithms.map Algorithm.value)
        cs rs ss := by
  have hcs : ∀ e ∈ d.canonical.certificates.map Certificate.octets,
      ∃ v : Value, v.Framed ∧ e = v.octets :=
    List.forall_mem_map.mpr fun c _ => c.exists_value
  have hrs : ∀ e ∈ d.canonical.crls.map Crl.octets, ∃ v : Value, v.Framed ∧ e = v.octets :=
    List.forall_mem_map.mpr fun c _ => c.exists_value
  obtain ⟨cs, hcs, -⟩ := exists_values hcs
  obtain ⟨rs, hrs, -⟩ := exists_values hrs
  have hdigests : d.canonical.digestAlgorithms.map Algorithm.octets =
      (d.canonical.digestAlgorithms.map Algorithm.value).map Value.octets := by
    simp [Function.comp_def, Algorithm.octets_value]
  refine ⟨cs, rs, hcs.symm, hrs.symm, fun ss => ?_⟩
  simp only [front, layOut, optionalSet_eq certificatesTag hcs, optionalSet_eq crlsTag hrs,
    Write.setOf_eq Tag.set hdigests, List.append_assoc]

/-- The fields of `d` are laid out in canonical order. -/
theorem exists_body_eq (d : SignedData) : ∃ cs rs : List Value,
    cs.map Value.octets = d.canonical.certificates.map Certificate.octets ∧
    rs.map Value.octets = d.canonical.crls.map Crl.octets ∧
    d.body = layOut (d.version.getD 1) d.content (d.canonical.digestAlgorithms.map Algorithm.value)
      cs rs (d.canonical.signers.map Signer.value) := by
  obtain ⟨cs, rs, hcs, hrs, hfront⟩ := d.exists_front_eq
  have hsigners : d.canonical.signers.map (fun s => s.value.octets) =
      (d.canonical.signers.map Signer.value).map Value.octets := by
    simp [Function.comp_def]
  refine ⟨cs, rs, hcs, hrs, ?_⟩
  rw [← hfront, ← Write.setOf_eq Tag.set hsigners]
  simp only [body, front, List.append_assoc]

theorem setOf_sortBy {α : Type} {f : α → Bytes} (tag : UInt8) (xs : List α)
    (h : ∀ x ∈ xs, ∃ v : Value, f x = v.octets) :
    Write.setOf tag ((SetOrder.sortBy f xs).map f) = Write.setOf tag (xs.map f) := by
  rw [Write.setOf, Write.setOf, SetOrder.map_sortBy, SetOrder.sort_sort (List.forall_mem_map.mpr h)]

theorem optionalSet_sortBy {α : Type} {f : α → Bytes} (tag : UInt8) (xs : List α)
    (h : ∀ x ∈ xs, ∃ v : Value, f x = v.octets) :
    optionalSet tag ((SetOrder.sortBy f xs).map f) = optionalSet tag (xs.map f) := by
  have hempty : ((SetOrder.sortBy f xs).map f).isEmpty = (xs.map f).isEmpty :=
    ((SetOrder.sortBy_perm f xs).map f).isEmpty_eq
  rw [optionalSet, optionalSet, setOf_sortBy tag xs h, hempty]

/-- Data in canonical order (`d.canonical`) is written as it stands. -/
theorem encoding_canonical (d : SignedData) : d.canonical.encoding = d.encoding := by
  have hdigests := setOf_sortBy Tag.set d.digestAlgorithms
    fun a _ => ⟨a.value, a.octets_value.symm⟩
  have hsigners := setOf_sortBy Tag.set d.signers fun s _ => ⟨s.value, rfl⟩
  have hcertificates := optionalSet_sortBy certificatesTag d.certificates fun c _ =>
    have ⟨v, _, h⟩ := c.exists_value
    ⟨v, h⟩
  have hcrls := optionalSet_sortBy crlsTag d.crls fun c _ =>
    have ⟨v, _, h⟩ := c.exists_value
    ⟨v, h⟩
  simp only [encoding, info, body, canonical, hdigests, hsigners, hcertificates, hcrls,
    Option.getD_some]

/-! ## What is read -/

/-- Signed data `d` as it is read: each part obeys the rules of its own reader, and no set has too
many elements. -/
structure Readable (limits : Limits) (d : SignedData) : Prop where
  digestAlgorithms : ∀ a ∈ d.digestAlgorithms, a.Readable
  signers : ∀ s ∈ d.signers, s.Readable limits
  length_digestAlgorithms : d.digestAlgorithms.length ≤ limits.maxElements
  length_certificates : d.certificates.length ≤ limits.maxElements
  length_crls : d.crls.length ≤ limits.maxElements
  length_signers : d.signers.length ≤ limits.maxElements

theorem Readable.hasSets {limits : Limits} {d : SignedData} (h : d.Readable limits) :
    ∀ s ∈ d.signers, s.HasSets :=
  fun s hs => (h.signers s hs).hasSets

/-- No attributes in `d` are longer than the octets that are read under the `limits`. -/
def Bounded (limits : Limits) (d : SignedData) : Prop :=
  ∀ s ∈ d.signers, (∀ set ∈ s.authenticated, set.encoded.length ≤ limits.maxInput) ∧
    ∀ set ∈ s.unauthenticated, set.encoded.length ≤ limits.maxInput

/-- A field that may be left out: encodings `es` under a `tag`, in the order in which they are
given. -/
def optionalField (tag : UInt8) : Option (List Bytes) → Bytes
  | none => []
  | some es => Write.element tag es.flatten

theorem readOptionalSet_ok {c c' : Cursor} {tag : UInt8} {vs : List Value}
    (htag : Value.Short tag) (h : readOptionalSet c tag = .ok (vs, c')) :
    (∃ o : Option (List Value), o.getD [] = vs ∧
      c.Step (optionalField tag (o.map (List.map Value.octets))) c') ∧
    vs.length ≤ c.limits.maxElements := by
  unfold readOptionalSet at h
  split at h
  · obtain ⟨hstep, -, hcount⟩ := (Cursor.elements_eq_ok htag).mp h
    rw [Write.values_eq_flatten] at hstep
    exact ⟨⟨some vs, rfl, hstep⟩, hcount⟩
  · cases h
    exact ⟨⟨none, rfl, Cursor.step_nil.mpr rfl⟩, by simp⟩

theorem readAids_ok {c c' : Cursor} {g : Grammar} {cs rs : List Value}
    (h : readAids c g = .ok (cs, rs, c')) :
    (∃ b, c.Step b c') ∧ cs.length ≤ c.limits.maxElements ∧ rs.length ≤ c.limits.maxElements := by
  cases g with
  | current =>
    simp only [readAids, bind_eq_ok, pure_eq_ok, Prod.exists, Prod.mk.injEq] at h
    obtain ⟨_, c₁, hcs, _, c₂, hrs, rfl, rfl, rfl⟩ := h
    obtain ⟨⟨_, -, ha⟩, hcs⟩ := readOptionalSet_ok (by decide) hcs
    obtain ⟨⟨_, -, hb⟩, hrs⟩ := readOptionalSet_ok (by decide) hrs
    rw [ha.limits] at hrs
    exact ⟨⟨_, Cursor.step_append.mpr ⟨c₁, ha, hb⟩⟩, hcs, hrs⟩
  | legacy =>
    simp only [readAids, bind_eq_ok, pure_eq_ok, Prod.exists, Prod.mk.injEq,
      Cursor.setOf_eq_ok] at h
    obtain ⟨_, c₁, ⟨ha, -, hcs⟩, _, c₂, ⟨hb, -⟩, rfl, rfl, rfl⟩ := h
    exact ⟨⟨_, Cursor.step_append.mpr ⟨c₁, ha, hb⟩⟩, hcs, by simp⟩

/-- What `ofValue` reads, in either grammar, obeys the rules of signed data. -/
theorem readable_of_ofValue {limits : Limits} {g : Grammar} {v : Value} {d : SignedData}
    (h : ofValue limits g v = .ok d) : d.Readable limits ∧ d.Bounded limits := by
  simp only [ofValue, ite_error_eq_ok, bind_eq_ok, pure_eq_ok, Prod.exists, Cursor.start_eq_ok,
    Cursor.word_eq_ok, Cursor.setOf_eq_ok] at h
  obtain ⟨-, _, ⟨hinput, rfl⟩, version, c₁, hversion, digests, c₂, ⟨hdigests, hdlen, hdcount⟩, as,
    has, content, c₃, hcontent, cs, rs, c₄, haids, ss, c₅, ⟨hsigners, hslen, hscount⟩, -, -,
    certificates, hcs, crls, hrs, signers, hss, rfl⟩ := h
  obtain ⟨b, hcontent, -⟩ := ContentInfo.exists_read_of_step hcontent
  obtain ⟨⟨b', haids⟩, hccount, hrcount⟩ := readAids_ok haids
  have hlimits₁ : c₁.limits = limits := hversion.limits
  have hlimits₃ : c₃.limits = limits := by rw [hcontent.limits, hdigests.limits, hlimits₁]
  have hlimits₄ : c₄.limits = limits := by rw [haids.limits, hlimits₃]
  rw [hlimits₁] at hdcount
  rw [hlimits₃] at hccount hrcount
  rw [hlimits₄] at hscount
  -- what is left of the content when the signers are reached
  have hlen : c₄.rest.length ≤ v.content.length := by
    have h₁ : v.content.length = _ := hversion.length_rest
    have h₂ := hdigests.length_rest
    have h₃ := hcontent.length_rest
    have h₄ := haids.length_rest
    omega
  have hvalues := hsigners.length_le
  simp only [Write.element, List.length_cons, List.length_append] at hvalues
  have hread := exists_of_mapM hss
  have hdread := exists_of_mapM has
  refine ⟨⟨?_, ?_, ?_, ?_, ?_, ?_⟩, ?_⟩
  · intro a ha
    obtain ⟨w, hw, h⟩ := hdread a ha
    exact ((Algorithm.ofValue_eq_ok (Write.framed_of_values hdlen w hw)).mp h).2
  · intro s hs
    obtain ⟨w, hw, h⟩ := hread s hs
    exact (Signer.readable_of_ofValue h).1
  · rwa [length_of_mapM has]
  · rwa [length_of_mapM hcs]
  · rwa [length_of_mapM hrs]
  · rwa [length_of_mapM hss]
  · intro s hs
    obtain ⟨w, hw, h⟩ := hread s hs
    obtain ⟨-, hauth, hunauth⟩ := Signer.readable_of_ofValue h
    have hle := Write.length_octets_le_values hw
    have hle' := w.length_content_le
    refine ⟨fun set hset => ?_, fun set hset => ?_⟩
    · have := hauth set hset
      omega
    · have := hunauth set hset
      omega

theorem readable_of_ofCertificates {limits : Limits} {g : Grammar} {info : ContentInfo} {v : Value}
    {d : SignedData} (h : ofCertificates limits g info v = .ok d) :
    d.Readable limits ∧ d.Bounded limits := by
  simp only [ofCertificates, ite_error_eq_ok, bind_eq_ok, pure_eq_ok, Cursor.start_eq_ok,
    Cursor.all_eq_ok] at h
  obtain ⟨-, _, ⟨-, rfl⟩, vs, ⟨-, -, hcount⟩, certificates, hcs, rfl⟩ := h
  rw [← length_of_mapM hcs] at hcount
  refine ⟨⟨?_, ?_, ?_, hcount, ?_, ?_⟩, ?_⟩ <;> simp [new, Bounded]

/-- **Types.** The type of a content (`info.type`) decides how the value `v` in it is read. -/
theorem ofInfo_eq_ok {limits : Limits} {g : Grammar} {info : ContentInfo} {d : SignedData} :
    ofInfo limits g info = .ok d ↔ ∃ v, info.content = some v ∧
      (info.type = Oid.signedData ∧ ofValue limits g v = .ok d ∨
        info.type = Oid.mistypedSignedData ∧ ofValue limits .legacy v = .ok d ∨
        info.type = Oid.certificateSequence ∧ ofCertificates limits g info v = .ok d) := by
  have hmistyped : Oid.mistypedSignedData ≠ Oid.signedData := by decide
  have hsequence : Oid.certificateSequence ≠ Oid.signedData := by decide
  have hsequence' : Oid.certificateSequence ≠ Oid.mistypedSignedData := by decide
  unfold ofInfo
  split
  · rename_i hnone
    simp [hnone]
  · rename_i v hv
    simp only [hv, Option.some.injEq, exists_eq_left']
    split
    · rename_i htype
      simp [htype, hmistyped.symm, hsequence.symm]
    · rename_i hdata
      split
      · rename_i htype
        simp [htype, hmistyped, hsequence'.symm]
      · rename_i hmistyped
        split
        · rename_i htype
          simp [htype, hsequence, hsequence']
        · rename_i hsequence
          simp [hdata, hmistyped, hsequence]

theorem readable_of_ofInfo {limits : Limits} {g : Grammar} {info : ContentInfo} {d : SignedData}
    (h : ofInfo limits g info = .ok d) : d.Readable limits ∧ d.Bounded limits := by
  obtain ⟨v, -, ⟨-, h⟩ | ⟨-, h⟩ | ⟨-, h⟩⟩ := ofInfo_eq_ok.mp h
  · exact readable_of_ofValue h
  · exact readable_of_ofValue h
  · exact readable_of_ofCertificates h

theorem exists_ofInfo {limits : Limits} {b : Bytes} {d : SignedData}
    (h : ofOctets b limits = .ok d) : ∃ g info, ofInfo limits g info = .ok d := by
  have hread : ∀ {g}, read (Cursor.ofBuffer b limits) g = .ok d →
      ∃ info, ofInfo limits g info = .ok d := by
    intro g hg
    simp only [read, bind_eq_ok, Prod.exists] at hg
    obtain ⟨info, -, -, -, -, hinfo⟩ := hg
    exact ⟨info, hinfo⟩
  simp only [ofOctets, bind_eq_ok, Cursor.start_eq_ok] at h
  obtain ⟨_, ⟨-, rfl⟩, h⟩ := h
  split at h
  · rename_i d' hcurrent
    cases h
    exact ⟨_, hread hcurrent⟩
  · exact ⟨_, hread h⟩

/-- **Reading.** Whatever `ofOctets` reads, in whichever grammar, obeys the rules of signed data. -/
theorem readable_of_ofOctets {limits : Limits} {b : Bytes} {d : SignedData}
    (h : ofOctets b limits = .ok d) : d.Readable limits ∧ d.Bounded limits := by
  obtain ⟨_, _, h⟩ := exists_ofInfo h
  exact readable_of_ofInfo h

/-! ## Reading what is written -/

/-- The form `d.canonical` obeys the rules that `d` obeys. -/
theorem Readable.canonical {limits : Limits} {d : SignedData} (h : d.Readable limits) :
    d.canonical.Readable limits where
  digestAlgorithms a ha := h.digestAlgorithms a ((SetOrder.mem_sortBy _ _).mp ha)
  signers s hs := h.signers s ((SetOrder.mem_sortBy _ _).mp hs)
  length_digestAlgorithms := (SetOrder.length_sortBy _ _).symm ▸ h.length_digestAlgorithms
  length_certificates := (SetOrder.length_sortBy _ _).symm ▸ h.length_certificates
  length_crls := (SetOrder.length_sortBy _ _).symm ▸ h.length_crls
  length_signers := (SetOrder.length_sortBy _ _).symm ▸ h.length_signers

theorem mapM_algorithms {limits : Limits} {vs : List Value} {as : List Algorithm}
    (hframed : ∀ v ∈ vs, v.Framed) :
    vs.mapM (Algorithm.ofValue limits) = .ok as ↔
      vs = as.map Algorithm.value ∧ ∀ a ∈ as, a.Readable := by
  have h (v : Value) (hv : v ∈ vs) (a : Algorithm) :
      Algorithm.ofValue limits v = .ok a ↔ id v = a.value ∧ a.Readable :=
    Algorithm.ofValue_eq_ok (hframed v hv)
  rw [mapM_eq_ok_of_forall h, List.map_id]

theorem mapM_signers {limits : Limits} {vs : List Value} {ss : List Signer}
    (hframed : ∀ v ∈ vs, v.Framed) :
    vs.mapM (Signer.ofValue limits .current) = .ok ss ↔
      vs = ss.map Signer.value ∧ ∀ s ∈ ss, s.Readable limits := by
  have h (v : Value) (hv : v ∈ vs) (s : Signer) :
      Signer.ofValue limits .current v = .ok s ↔ id v = s.value ∧ s.Readable limits :=
    Signer.ofValue_current_eq_ok (hframed v hv)
  rw [mapM_eq_ok_of_forall h, List.map_id]

theorem mapM_certificates {vs : List Value} {cs : List Certificate} :
    vs.mapM (fun v => Certificate.ofOctets v.octets) = .ok cs ↔
      vs.map Value.octets = cs.map Certificate.octets := by
  rw [mapM_eq_ok_of_forall (k := Value.octets) (g := Certificate.octets) (P := fun _ => True)
    (by simp [Certificate.ofOctets_eq_ok])]
  simp

/-- Certificates `cs` are read again from their octets. -/
theorem eq_of_mapM_certificates {vs : List Value} {cs ds : List Certificate}
    (hcs : vs.map Value.octets = cs.map Certificate.octets)
    (h : vs.mapM (fun v => Certificate.ofOctets v.octets) = .ok ds) : ds = cs := by
  rw [mapM_certificates, hcs] at h
  exact (List.map_inj_right fun _ _ h => Certificate.ext_octets h).mp h.symm

theorem mapM_crls {vs : List Value} {rs : List Crl} :
    vs.mapM (fun v => Crl.ofOctets v.octets) = .ok rs ↔
      vs.map Value.octets = rs.map Crl.octets := by
  rw [mapM_eq_ok_of_forall (k := Value.octets) (g := Crl.octets) (P := fun _ => True)
    (by simp [Crl.ofOctets_eq_ok])]
  simp

theorem length_lt_wrap (body : Bytes) : body.length < (wrap body).length := by
  simp only [wrap, ContentInfo.octets_eq, ContentInfo.body, ContentInfo.wrapped,
    Value.octets_ofOctet (show Value.Short Tag.sequence by decide), Write.element, List.length_cons,
    List.length_append]
  omega

/-- In either grammar, an encoding `wrap body` that is not too long is read as a content that is
signed data. -/
theorem read_wrap (body : Bytes) (limits : Limits) (g : Grammar)
    (hlen : (wrap body).length < UInt32.size) :
    read (Cursor.ofBuffer (wrap body) limits) g =
      ofValue limits g (Value.ofOctet Tag.sequence body) := by
  let info : ContentInfo := ⟨Oid.signedData, some (Value.ofOctet Tag.sequence body)⟩
  obtain ⟨c', hstep, hrest, -⟩ := Cursor.exists_step (b := info.octets) (r := [])
    (Cursor.rest_ofBuffer (wrap body) limits |>.trans (List.append_nil _).symm)
  have hbody : info.body.length < UInt32.size := by
    have hlen : info.octets.length < UInt32.size := hlen
    rw [ContentInfo.octets_eq, Write.element, List.length_cons, List.length_append] at hlen
    omega
  have hcurrent := ContentInfo.read_current_eq_ok.mpr ⟨hstep, hbody⟩
  have hread : ContentInfo.read (Cursor.ofBuffer (wrap body) limits) g = .ok (info, c') := by
    cases g with
    | current => exact hcurrent
    | legacy => exact ContentInfo.read_legacy_of_current hcurrent
  have hfinish := Cursor.finish_eq_ok (u := ()).mpr hrest
  simp only [read, hread, hfinish, bind, Except.bind]
  simp [ofInfo, info, Cursor.ofBuffer]

/-- The elements of fields that are not too long, here `digests` and `signers`, are not too long
either. -/
theorem length_lt_of_layOut {version : UInt32} {content : ContentInfo}
    {digests certificates crls signers : List Value}
    (h : (layOut version content digests certificates crls signers).length < UInt32.size) :
    (∀ v ∈ digests, v.octets.length < UInt32.size) ∧
      ∀ v ∈ signers, v.octets.length < UInt32.size := by
  simp only [layOut, Write.element, List.length_append, List.length_cons] at h
  refine ⟨fun v hv => ?_, fun v hv => ?_⟩
  · have := Write.length_octets_le_values hv
    omega
  · have := Write.length_octets_le_values hv
    omega

/-- Fields that were laid out (`layOut`) are found again by `ofOctets`, in the current grammar. -/
theorem ofOctets_wrap_layOut {limits : Limits} {version : UInt32} {content : ContentInfo}
    {digests certificates crls signers : List Value} {q : SignedData}
    (hmax : limits.maxInput < UInt32.size)
    (h : ofOctets (wrap (layOut version content digests certificates crls signers)) limits =
      .ok q) :
    q.content = content ∧
      certificates.mapM (fun v => Certificate.ofOctets v.octets) = .ok q.certificates ∧
      (∀ v ∈ signers, v.octets.length < UInt32.size) ∧
      signers.mapM (Signer.ofValue limits .current) = .ok q.signers := by
  have hlt := length_lt_wrap (layOut version content digests certificates crls signers)
  simp only [ofOctets, bind_eq_ok, Cursor.start_eq_ok] at h
  obtain ⟨_, ⟨hlen, rfl⟩, h⟩ := h
  have hwrap := Nat.lt_of_le_of_lt hlen hmax
  rw [read_wrap _ _ .current hwrap, read_wrap _ _ .legacy hwrap] at h
  split at h
  · rename_i d' hd'
    cases h
    obtain ⟨-, -, -, hcertificates, -, hsigners, -, hcontent, -⟩ :=
      (ofValue_layOut_eq_ok (Nat.lt_trans hlt hwrap)).mp hd'
    exact ⟨hcontent, hcertificates, (length_lt_of_layOut (Nat.lt_trans hlt hwrap)).2, hsigners⟩
  · exact absurd h (ofValue_layOut_legacy (Nat.lt_trans hlt hwrap) q)

/-- **Writing and reading.** What is written for data `d` that obeys the rules is read as
`d.canonical`. -/
theorem ofOctets_encoding {limits : Limits} {d : SignedData} (h : d.Readable limits)
    (hmax : limits.maxInput < UInt32.size) (hlen : d.encoding.length ≤ limits.maxInput) :
    ofOctets d.encoding limits = .ok d.canonical := by
  obtain ⟨cs, rs, hcs, hrs, hbody⟩ := d.exists_body_eq
  rw [encoding_eq_wrap, hbody] at hlen ⊢
  have hlt := length_lt_wrap (layOut (d.version.getD 1) d.content
    (d.canonical.digestAlgorithms.map Algorithm.value) cs rs (d.canonical.signers.map Signer.value))
  have hwrap := Nat.lt_of_le_of_lt hlen hmax
  have hread := read_wrap _ limits .current hwrap
  have hbound := Nat.lt_trans hlt hwrap
  have hvalue : ofValue limits .current (Value.ofOctet Tag.sequence (layOut (d.version.getD 1)
      d.content (d.canonical.digestAlgorithms.map Algorithm.value) cs rs
      (d.canonical.signers.map Signer.value))) = .ok d.canonical := by
    obtain ⟨hdigests, hsigners⟩ := length_lt_of_layOut hbound
    have hcount := congrArg List.length hcs
    have hcount' := congrArg List.length hrs
    rw [List.length_map, List.length_map] at hcount hcount'
    have hc := h.canonical
    exact (ofValue_layOut_eq_ok hbound).mpr ⟨by omega,
      ⟨by simpa using hc.length_digestAlgorithms, hcount ▸ hc.length_certificates,
        hcount' ▸ hc.length_crls, by simpa using hc.length_signers⟩,
      (mapM_algorithms fun v hv => Value.framed_of_length (hdigests v hv)).mpr
        ⟨rfl, hc.digestAlgorithms⟩,
      mapM_certificates.mpr hcs, mapM_crls.mpr hrs,
      (mapM_signers fun v hv => Value.framed_of_length (hsigners v hv)).mpr ⟨rfl, hc.signers⟩,
      rfl, rfl, rfl⟩
  rw [hvalue] at hread
  have hstart := Cursor.start_eq_ok.mpr ⟨hlen, rfl⟩
  simp only [ofOctets, hstart, hread, bind, Except.bind]
  rfl

/-- What is read from `d.encoding` has the certificates and signers of `d` in canonical order, each
signer as it is read from its own encoding. -/
theorem canonical_of_ofOctets {limits : Limits} {d q : SignedData}
    (hmax : limits.maxInput < UInt32.size) (h : ofOctets d.encoding limits = .ok q) :
    q.content = d.content ∧ q.certificates = d.canonical.certificates ∧
      (∀ s ∈ d.canonical.signers, s.value.Framed) ∧
      (d.canonical.signers.map Signer.value).mapM (Signer.ofValue limits .current) =
        .ok q.signers := by
  obtain ⟨cs, rs, hcs, hrs, hbody⟩ := d.exists_body_eq
  rw [encoding_eq_wrap, hbody] at h
  obtain ⟨hcontent, hcertificates, hlen, hsigners⟩ := ofOctets_wrap_layOut hmax h
  exact ⟨hcontent, eq_of_mapM_certificates hcs hcertificates,
    fun s hs => Value.framed_of_length (List.forall_mem_map.mp hlen s hs), hsigners⟩

/-- Attributes that were read within the `.default` limits can be written. -/
theorem writable_of_bounded {d : SignedData} (h : d.Bounded .default) :
    ∀ s ∈ d.signers, s.Writable := h

/-- **Writing again is a fixed point.** Whatever was read from `b`, in whichever grammar, is written
in some form, `d`. Unless that is too long, `d` is read in the current grammar as the same data `q`,
the sets in another order at most and a version in any case, and `d` is what is written for `q`. -/
theorem reencoding_fixed_point {b : Bytes} {p : SignedData} (h : ofOctets b .default = .ok p) :
    ∃ d, p.octets = .ok d ∧
      (d.length ≤ Limits.default.maxInput →
        ∃ q, ofOctets d .default = .ok q ∧ q.grammar = .current ∧
          q.version = some (p.version.getD 1) ∧ q.content = p.content ∧
          q.digestAlgorithms.Perm p.digestAlgorithms ∧ q.certificates.Perm p.certificates ∧
          q.crls.Perm p.crls ∧ q.signers.Perm p.signers ∧ q.octets = .ok d) := by
  obtain ⟨hread, hbounded⟩ := readable_of_ofOctets h
  have hwrite := writable_of_bounded hbounded
  refine ⟨p.encoding, (octets_eq_ok hread.hasSets).mpr ⟨hwrite, rfl⟩, fun hlen => ?_⟩
  have hcanonical := ofOctets_encoding hread (by decide) hlen
  refine ⟨p.canonical, hcanonical, rfl, rfl, rfl, SetOrder.sortBy_perm _ _,
    SetOrder.sortBy_perm _ _, SetOrder.sortBy_perm _ _, SetOrder.sortBy_perm _ _, ?_⟩
  refine (octets_eq_ok hread.canonical.hasSets).mpr ⟨fun s hs => ?_, p.encoding_canonical⟩
  exact hwrite s ((SetOrder.mem_sortBy _ _).mp hs)

/-- A certificate with a `serial` number and no names. -/
def plainCertificate (serial : Int) : Bytes :=
  let algorithm := (Algorithm.plain Oid.sha256WithRsa).octets
  let bound := Write.element Tag.utcTime (Bytes.ofString "260101000000Z")
  Write.element Tag.sequence
    (Write.element Tag.sequence
      (Write.integer serial ++ algorithm ++ Write.sequence [] ++
        Write.element Tag.sequence (bound ++ bound) ++ Write.sequence [] ++
        Write.element Tag.sequence (algorithm ++ Write.wholeBits [])) ++
      algorithm ++ Write.wholeBits [])

/-- A signer with an empty set of attributes, before which a `stray` set may stand. -/
def plainSigner (stray : Bytes) (serial : Int) : Bytes :=
  Write.element Tag.sequence
    (Write.word 1 ++ Write.element Tag.sequence (Write.sequence [] ++ Write.integer serial) ++
      (Algorithm.plain Oid.sha256).octets ++ stray ++ Write.element Signer.authenticatedTag [] ++
      (Algorithm.plain Oid.rsaEncryption).octets ++ Write.octetString [])

/-- Signed data in the legacy grammar: a content without wrapper, stray sets, and each
`plainCertificate` and `plainSigner` out of order. -/
def legacySample : Bytes :=
  Write.element Tag.sequence (Write.oid Oid.signedData ++ Write.element Tag.sequence
    (Write.word 1 ++ Write.element Tag.set (Algorithm.plain Oid.sha256).octets ++
      Write.element Tag.sequence (Write.oid Oid.data ++ Write.octetString [1, 2, 3]) ++
      Write.element Tag.set (plainCertificate 2 ++ plainCertificate 1) ++
      Write.element Tag.set [] ++
      Write.element Tag.set
        (plainSigner (Write.element Tag.set []) 2 ++ plainSigner (Write.element Tag.set []) 1)))

/-- The signed data of `legacySample` in the current grammar. -/
def currentSample : Bytes :=
  ContentInfo.octets ⟨Oid.signedData, some (Value.ofOctet Tag.sequence
    (Write.word 1 ++ (Write.element Tag.set (Algorithm.plain Oid.sha256).octets ++
      ((ContentInfo.data [1, 2, 3]).octets ++
        (Write.element certificatesTag (plainCertificate 1 ++ plainCertificate 2) ++
          Write.element Tag.set (plainSigner [] 1 ++ plainSigner [] 2))))))⟩

/-- `reencoding_fixed_point` at `legacySample`, which is written as `currentSample`. -/
theorem exists_reencoding_legacySample :
    ∃ p q, ofOctets legacySample .default = .ok p ∧ p.grammar = .legacy ∧
      p.octets = .ok currentSample ∧ currentSample.length ≤ Limits.default.maxInput ∧
      ofOctets currentSample .default = .ok q ∧ q.grammar = .current ∧
      q.version = some (p.version.getD 1) ∧ q.content = p.content ∧
      q.digestAlgorithms.Perm p.digestAlgorithms ∧ q.certificates.Perm p.certificates ∧
      q.crls.Perm p.crls ∧ q.signers.Perm p.signers ∧ q.octets = .ok currentSample := by
  have hsets : (ofOctets legacySample .default).toOption.map (fun p =>
      (p.certificates.map Certificate.octets, p.crls.map Crl.octets,
        p.signers.map fun s => s.value.octets)) = some
      ([plainCertificate 2, plainCertificate 1], [], [plainSigner [] 2, plainSigner [] 1]) := by
    decide +kernel
  obtain ⟨p, hp, hfields⟩ := exists_of_map_toOption (x := ofOctets legacySample .default)
    (f := fun p => (p.grammar, p.version, p.digestAlgorithms, p.content))
    (b := (.legacy, some 1, [Algorithm.plain Oid.sha256], ContentInfo.data [1, 2, 3]))
    (by decide +kernel)
  rw [hp] at hsets
  simp only [Except.toOption, Option.map_some, Option.some.injEq, Prod.mk.injEq] at hsets hfields
  obtain ⟨hcertificates, hcrls, hsigners⟩ := hsets
  obtain ⟨hgrammar, hversion, hdigests, hcontent⟩ := hfields
  have hencoding : p.encoding = currentSample := by
    have hcs : SetOrder.cmp (plainCertificate 2) (plainCertificate 1) = .gt := by decide +kernel
    have hss : SetOrder.cmp (plainSigner [] 2) (plainSigner [] 1) = .gt := by decide +kernel
    simp only [encoding, info, body, hversion, hdigests, hcontent, hcertificates, hcrls, hsigners,
      optionalSet, Write.setOf, SetOrder.sort_pair hcs, SetOrder.sort_pair hss]
    simp [SetOrder.sort, currentSample]
  obtain ⟨d, hd, hq⟩ := reencoding_fixed_point hp
  have hdp := ((octets_eq_ok (readable_of_ofOctets hp).1.hasSets).mp hd).2
  rw [hencoding] at hdp
  subst hdp
  have hlen : currentSample.length ≤ Limits.default.maxInput := by decide +kernel
  obtain ⟨q, hq⟩ := hq hlen
  exact ⟨p, q, hp, hgrammar, hd, hlen, hq⟩

end Pkix.SignedData
