import Pkix.SignedData.Basic
import Pkix.Proofs.SignedData.ContentInfo
import Pkix.Proofs.SignedData.Signer

/-!
# The fields of signed data

* `SignedData.layOut`: the fields of signed data one after the other, the sets as lists of values.
* `SignedData.ofValue_layOut_eq_ok`: fields that were laid out are found again, so signed data is
  read if the values in the sets are.
* `SignedData.ofValue_layOut_legacy`: the legacy grammar never reads them.
-/

namespace Pkix.SignedData

open Der

/-- The elements `vs` as a set under `tag`, left out where there are none. -/
def optionalElements (tag : UInt8) (vs : List Value) : Bytes :=
  if vs = [] then [] else Write.element tag (Write.values vs)

/-- The fields of signed data in the current grammar, from its `version` to its `signers`. -/
def layOut (version : UInt32) (content : ContentInfo)
    (digests certificates crls signers : List Value) : Bytes :=
  Write.word version ++ (Write.element Tag.set (Write.values digests) ++ (content.octets ++
    (optionalElements certificatesTag certificates ++ (optionalElements crlsTag crls ++
      Write.element Tag.set (Write.values signers)))))

/-- Where an optional set of `vs` is known to come next, reading it only depends on the number of
`vs`. -/
theorem readOptionalSet_of_rest {c : Cursor} {tag : UInt8} {vs : List Value} {b : Bytes}
    (htag : Value.Short tag) (hrest : c.rest = optionalElements tag vs ++ b)
    (hlen : c.rest.length < UInt32.size) (hb : b.head? ≠ some tag) :
    ∃ c', c'.rest = b ∧ c'.limits = c.limits ∧ ∀ r,
      readOptionalSet c tag = .ok r ↔ vs.length ≤ c.limits.maxElements ∧ (vs, c') = r := by
  unfold optionalElements at hrest
  split at hrest
  · rename_i hvs
    subst hvs
    refine ⟨c, hrest, rfl, fun r => ?_⟩
    rw [readOptionalSet, Cursor.peek, hrest, List.nil_append, if_neg hb]
    simp
  · obtain ⟨c', hstep, hrest', hlimits⟩ := Cursor.exists_step hrest
    refine ⟨c', hrest', hlimits, fun r => ?_⟩
    have hle := hstep.length_le
    simp only [Write.element, List.length_cons, List.length_append] at hle
    have hpeek : c.peek = some tag := by
      rw [Cursor.peek, hrest]
      rfl
    rw [readOptionalSet, if_pos hpeek]
    exact Cursor.elements_of_step htag hstep (by omega)

theorem head?_element (tag : UInt8) (b : Bytes) : (Write.element tag b).head? = some tag := rfl

theorem head?_optionalElements {tag other : UInt8} {vs : List Value} {b : Bytes}
    (htag : tag ≠ other) (hb : b.head? ≠ some other) :
    (optionalElements tag vs ++ b).head? ≠ some other := by
  unfold optionalElements
  split
  · exact hb
  · simpa [Write.element] using htag

/-- **Fields.** Fields that were laid out (`layOut`) are found again; the values in the sets decide
whether signed data is read. -/
theorem ofValue_layOut_eq_ok {limits : Limits} {version : UInt32} {content : ContentInfo}
    {digests certificates crls signers : List Value} {d : SignedData}
    (hlen : (layOut version content digests certificates crls signers).length < UInt32.size) :
    ofValue limits .current (Value.ofOctet Tag.sequence
        (layOut version content digests certificates crls signers)) = .ok d ↔
      (layOut version content digests certificates crls signers).length ≤ limits.maxInput ∧
      (digests.length ≤ limits.maxElements ∧ certificates.length ≤ limits.maxElements ∧
        crls.length ≤ limits.maxElements ∧ signers.length ≤ limits.maxElements) ∧
      digests.mapM (Algorithm.ofValue .default) = .ok d.digestAlgorithms ∧
      certificates.mapM (fun v => Certificate.ofOctets v.octets) = .ok d.certificates ∧
      crls.mapM (fun v => Crl.ofOctets v.octets) = .ok d.crls ∧
      signers.mapM (Signer.ofValue limits .current) = .ok d.signers ∧
      d.version = some version ∧ d.content = content ∧ d.grammar = .current := by
  obtain ⟨c₁, hversion, hrest₁, hlimits₁⟩ := Cursor.exists_step
    (Cursor.rest_ofBuffer (layOut version content digests certificates crls signers) limits)
  obtain ⟨c₂, hdigests, hrest₂, hlimits₂⟩ := Cursor.exists_step hrest₁
  obtain ⟨c₃, hcontent, hrest₃, hlimits₃⟩ := Cursor.exists_step hrest₂
  rw [Cursor.limits_ofBuffer] at hlimits₁
  rw [hlimits₁] at hlimits₂
  rw [hlimits₂] at hlimits₃
  have hlen₁ := hversion.length_rest
  have hlen₂ := hdigests.length_rest
  have hlen₃ := hcontent.length_rest
  rw [Cursor.rest_ofBuffer] at hlen₁
  obtain ⟨c₄, hrest₄, hlimits₄, hcertificates⟩ := readOptionalSet_of_rest (by decide) hrest₃
    (by omega) (head?_optionalElements (by decide) (by rw [head?_element]; decide))
  have hlen₄ := congrArg List.length hrest₃
  rw [← hrest₄, List.length_append] at hlen₄
  obtain ⟨c₅, hrest₅, hlimits₅, hcrls⟩ := readOptionalSet_of_rest (by decide) hrest₄
    (by omega) (by rw [head?_element]; decide)
  have hlen₅ := congrArg List.length hrest₄
  rw [← hrest₅, List.length_append] at hlen₅
  obtain ⟨c₆, hsigners, hrest₆, -⟩ := Cursor.exists_step (hrest₅.trans (List.append_nil _).symm)
  have hlen₆ := hsigners.length_rest
  rw [hlimits₃] at hlimits₄ hcertificates
  rw [hlimits₄] at hlimits₅ hcrls
  simp only [Write.element, List.length_cons, List.length_append] at hlen₂ hlen₆
  have hword := Cursor.word_eq_ok.mpr hversion
  have hread := ContentInfo.read_current_eq_ok.mpr ⟨hcontent, by
    rw [ContentInfo.octets_eq, Write.element, List.length_cons, List.length_append] at hlen₃
    omega⟩
  have hset (r) := Cursor.elements_of_step (r := r) (by decide) hdigests (by omega)
  have hset' (r) := Cursor.elements_of_step (r := r) (by decide) hsigners (by omega)
  rw [hlimits₁] at hset
  rw [hlimits₅] at hset'
  rw [ofValue, if_pos (Value.is_ofOctet _ _), Value.content_ofOctet]
  simp only [bind_eq_ok, pure_eq_ok, and_assoc, exists_and_left, exists_eq_left, exists_eq_left',
    exists_const, true_and, Except.ok.injEq, Cursor.start_eq_ok, hword, Cursor.setOf, hset, hread,
    readAids, hcertificates, hcrls, hset', Cursor.finish_eq_ok, hrest₆]
  constructor
  · rintro ⟨hinput, h₁, as, has, h₂, h₃, h₄, cs, hcs, rs, hrs, ss, hss, rfl⟩
    exact ⟨hinput, h₁, h₂, h₃, h₄, has, hcs, hrs, hss, rfl, rfl, rfl⟩
  · rintro ⟨hinput, h₁, h₂, h₃, h₄, has, hcs, hrs, hss, hv, hc, hg⟩
    refine ⟨hinput, h₁, _, has, h₂, h₃, h₄, _, hcs, _, hrs, _, hss, ?_⟩
    rw [← hv, ← hc, ← hg]

/-- An optional set under another `tag` is no plain set, and neither is nothing. -/
theorem optionalElements_eq_nil {tag : UInt8} {vs : List Value} {a b r : Bytes}
    (htag : tag ≠ Tag.set) (h : optionalElements tag vs ++ b = Write.element Tag.set a ++ r) :
    optionalElements tag vs = [] := by
  unfold optionalElements at h ⊢
  split
  · rfl
  · rename_i hvs
    rw [if_neg hvs] at h
    have h := congrArg List.head? h
    rw [Write.head?_element_append, Write.head?_element_append, Option.some.injEq] at h
    exact absurd h htag

/-- Fields that were laid out (`layOut`) are never read in the `.legacy` grammar, which has one more
set. -/
theorem ofValue_layOut_legacy {limits : Limits} {version : UInt32} {content : ContentInfo}
    {digests certificates crls signers : List Value}
    (hlen : (layOut version content digests certificates crls signers).length < UInt32.size)
    (d : SignedData) :
    ofValue limits .legacy (Value.ofOctet Tag.sequence
      (layOut version content digests certificates crls signers)) ≠ .ok d := by
  intro h
  simp only [ofValue, ite_error_eq_ok, bind_eq_ok, Prod.exists, Cursor.start_eq_ok,
    Cursor.word_eq_ok, Cursor.setOf_eq_ok, readAids] at h
  obtain ⟨-, _, ⟨-, rfl⟩, version', c₁, hversion, digests', c₂, ⟨hdigests, -⟩, -, -, content', c₃,
    hcontent, -, -, c₄, ⟨_, _, ⟨hfirst, -⟩, _, _, ⟨hsecond, -⟩, -⟩, -⟩ := h
  have h₁ := hversion.rest
  rw [Cursor.rest_ofBuffer, Value.content_ofOctet] at h₁
  obtain ⟨-, h₂⟩ := Write.element_append_inj_of_length (by decide) hlen h₁
  have hlen₂ := (Write.length_lt_of_element_append hlen).2
  rw [hdigests.rest] at h₂
  obtain ⟨-, h₃⟩ := Write.element_append_inj_of_length (by decide) hlen₂ h₂
  have hlen₃ := (Write.length_lt_of_element_append hlen₂).2
  obtain ⟨c₃', hstep, h₄, -⟩ := Cursor.exists_step h₃.symm
  have hread := ContentInfo.read_legacy_of_current (ContentInfo.read_current_eq_ok.mpr ⟨hstep, by
    rw [ContentInfo.octets_eq] at hlen₃
    exact (Write.length_lt_of_element_append hlen₃).1⟩)
  rw [hcontent] at hread
  cases hread
  have hlen₄ := (Write.length_lt_of_element_append (by rwa [ContentInfo.octets_eq] at hlen₃)).2
  -- where the certificates should be there is the set of signers, and then nothing
  rw [hfirst.rest] at h₄
  rw [← h₄] at hlen₄
  rw [optionalElements_eq_nil (by decide) h₄.symm, List.nil_append] at h₄
  rw [optionalElements_eq_nil (by decide) h₄.symm, List.nil_append,
    ← List.append_nil (Write.element Tag.set (Write.values signers))] at h₄
  have hrest := (Write.element_append_inj_of_length (by decide) hlen₄ h₄).2
  rw [hsecond.rest] at hrest
  cases hrest

end Pkix.SignedData
