import Pkix.Proofs.SignedData.Stability

/-!
# Verifying many signers

Signed data is verified signer by signer, and no signer has a say in the answer of another one.

* `SignedData.verify_eq_error`: verifying fails with the first signer that does.
* `SignedData.verify_withSigners`: the answer of a signer does not depend on the other ones.
* `SignedData.octets_withSigners`: nor does the order in which the other ones are written.
* `SignedData.verify_isolated`: what one signer in place of another changes.
-/

namespace Pkix

open Der

namespace Verification

theorem ofSigners_eq_noneVerified {ss : List Signer} : ofSigners ss = .noneVerified ↔ ss = [] := by
  cases ss <;> simp [ofSigners]

end Verification

namespace SignedData

variable {d : SignedData} {detached : Option Bytes}

/-! ## The answers -/

/-- The signer `s` verifies over the data `d`. -/
def accepts (d : SignedData) (detached : Option Bytes) (s : Signer) : Bool :=
  (s.verify d detached).toOption == some true

/-- The same data `d` with other `signers`. -/
def withSigners (d : SignedData) (signers : List Signer) : SignedData := { d with signers }

@[simp]
theorem signers_withSigners (d : SignedData) (ss : List Signer) : (d.withSigners ss).signers = ss :=
  rfl

/-- The answer of a signer `s` does not depend on the signers around it, `ss`. -/
theorem verify_withSigners (d : SignedData) (ss : List Signer) (s : Signer)
    (detached : Option Bytes) : s.verify (d.withSigners ss) detached = s.verify d detached := rfl

theorem exists_verify_eq_ok (h : ∀ s ∈ d.signers, ∃ b, s.verify d detached = .ok b) :
    ∃ r, d.verify detached = .ok r ∧ r.signers = d.signers.filter (d.accepts detached) ∧
      (r = .noneVerified ↔ d.signers.filter (d.accepts detached) = []) :=
  ⟨_, verify_eq_ok.mpr ⟨h, rfl⟩, Verification.signers_ofSigners _,
    Verification.ofSigners_eq_noneVerified⟩

theorem signers_of_verify {r : Verification} (h : d.verify detached = .ok r) :
    r.signers = d.signers.filter (d.accepts detached) := by
  obtain ⟨-, rfl⟩ := verify_eq_ok.mp h
  exact Verification.signers_ofSigners _

/-- `d.verify` fails with the first signer `s` that does. -/
theorem verify_eq_error {e : Error} :
    d.verify detached = .error e ↔ ∃ before s after, d.signers = before ++ s :: after ∧
      (∀ t ∈ before, ∃ b, t.verify d detached = .ok b) ∧ s.verify d detached = .error e := by
  rw [verify, bind_eq_error, filterM_eq_error]
  simp [pure, Except.pure]

/-! ## The encodings -/

theorem mapM_append_cons_eq_ok {ε α β : Type} {f : α → Except ε β} {xs zs : List α} {y : α}
    {es : List β} (h : (xs ++ y :: zs).mapM f = .ok es) :
    ∃ as b cs, es = as ++ b :: cs ∧ xs.mapM f = .ok as ∧ f y = .ok b ∧ zs.mapM f = .ok cs := by
  simp only [List.mapM_append, List.mapM_cons, bind_eq_ok, pure_eq_ok] at h
  obtain ⟨as, has, _, ⟨b, hb, cs, hcs, rfl⟩, rfl⟩ := h
  exact ⟨as, b, cs, rfl, has, hb, hcs⟩

/-- Signers are written in the same order whichever other one, `s`, stands among them. -/
theorem octets_withSigners {before after : List Signer} {s : Signer} {b : Bytes}
    (h : (d.withSigners (before ++ s :: after)).octets = .ok b) :
    ∃ es fs x front back, before.mapM Signer.octets = .ok es ∧ after.mapM Signer.octets = .ok fs ∧
      s.octets = .ok x ∧ b = d.encodingWith (front ++ x :: back) ∧
      front ++ back = SetOrder.sort (es ++ fs) := by
  obtain ⟨_, hall, rfl⟩ := exists_octets_eq h
  obtain ⟨es, x, fs, rfl, hes, hx, hfs⟩ := mapM_append_cons_eq_ok hall
  have hvalues : ∀ e ∈ es ++ fs, ∃ v : Value, e = v.octets :=
    List.forall_mem_append.mpr
      ⟨Signer.exists_value_of_mapM hes, Signer.exists_value_of_mapM hfs⟩
  obtain ⟨front, back, hsort, hrest⟩ :=
    SetOrder.exists_sort_middle hvalues (Signer.exists_value_of_octets hx)
  refine ⟨es, fs, x, front, back, hes, hfs, hx, ?_, hrest.symm⟩
  rw [hsort]
  rfl

/-! ## One signer in place of another -/

/-- **Signers on their own.** Where no signer of `d` is an error, those that verify are kept in
their order; otherwise the first error counts. One signer in place of another (`withSigners`)
changes the answer of no other signer: if the new one does not verify, the others that do are left
as they were, and they are written in the order in which they were written before. -/
theorem verify_isolated (d : SignedData) (detached : Option Bytes) :
    ((∀ s ∈ d.signers, ∃ b, s.verify d detached = .ok b) →
      ∃ r, d.verify detached = .ok r ∧ r.signers = d.signers.filter (d.accepts detached) ∧
        (r = .noneVerified ↔ d.signers.filter (d.accepts detached) = [])) ∧
    (∀ e, d.verify detached = .error e ↔
      ∃ before s after, d.signers = before ++ s :: after ∧
        (∀ t ∈ before, ∃ b, t.verify d detached = .ok b) ∧ s.verify d detached = .error e) ∧
    ∀ (before : List Signer) s after t, d.signers = before ++ s :: after →
      (∀ u : Signer,
        u.verify (d.withSigners (before ++ t :: after)) detached = u.verify d detached) ∧
      (t.verify (d.withSigners (before ++ t :: after)) detached = .ok false →
        (∀ u ∈ before ++ after, ∃ b, u.verify d detached = .ok b) →
          (∃ r, (d.withSigners (before ++ t :: after)).verify detached = .ok r ∧
            r.signers = before.filter (d.accepts detached) ++ after.filter (d.accepts detached)) ∧
          ∀ r, d.verify detached = .ok r → r.signers = before.filter (d.accepts detached) ++
            ([s].filter (d.accepts detached) ++ after.filter (d.accepts detached))) ∧
      ∀ b b', d.octets = .ok b → (d.withSigners (before ++ t :: after)).octets = .ok b' →
        ∃ es fs x y front back front' back', before.mapM Signer.octets = .ok es ∧
          after.mapM Signer.octets = .ok fs ∧ s.octets = .ok x ∧ t.octets = .ok y ∧
          b = d.encodingWith (front ++ x :: back) ∧ b' = d.encodingWith (front' ++ y :: back') ∧
          front ++ back = SetOrder.sort (es ++ fs) ∧
          front' ++ back' = SetOrder.sort (es ++ fs) := by
  refine ⟨exists_verify_eq_ok, fun e => verify_eq_error, fun before s after t hd => ?_⟩
  refine ⟨fun u => verify_withSigners d _ u detached, fun ht hothers => ⟨?_, fun r hr => ?_⟩,
    fun b b' hb hb' => ?_⟩
  · obtain ⟨hbefore, hafter⟩ := List.forall_mem_append.mp hothers
    have hall : ∀ u ∈ before ++ t :: after, ∃ b, u.verify d detached = .ok b :=
      List.forall_mem_append.mpr ⟨hbefore, List.forall_mem_cons.mpr ⟨⟨false, ht⟩, hafter⟩⟩
    obtain ⟨r, hr, hsigners, -⟩ :=
      exists_verify_eq_ok (d := d.withSigners (before ++ t :: after)) hall
    have hrefused : (d.withSigners (before ++ t :: after)).accepts detached t = false := by
      rw [accepts, ht]
      rfl
    refine ⟨r, hr, ?_⟩
    rw [hsigners, signers_withSigners, List.filter_append,
      List.filter_cons_of_neg (by rw [hrefused]; decide)]
    rfl
  · rw [signers_of_verify hr, hd, ← List.filter_append, List.singleton_append, List.filter_append]
  · rw [show d = d.withSigners (before ++ s :: after) by rw [← hd]; rfl] at hb
    obtain ⟨es, fs, x, front, back, hes, hfs, hx, rfl, hsort⟩ := octets_withSigners hb
    obtain ⟨_, _, y, front', back', hes', hfs', hy, rfl, hsort'⟩ := octets_withSigners hb'
    rw [hes] at hes'
    rw [hfs] at hfs'
    cases hes'
    cases hfs'
    exact ⟨es, fs, x, y, front, back, front', back', hes, hfs, hx, hy, rfl, rfl, hsort, hsort'⟩

/-- Signed data over the octets 1, 2, 3 with a certificate that all `signers` refer to. -/
def sampleBatch (signers : List Bytes) : Bytes :=
  ContentInfo.octets ⟨Oid.signedData, some (Value.ofOctet Tag.sequence
    (Write.word 1 ++ Write.element Tag.set (Algorithm.plain Oid.sha1).octets ++
      (ContentInfo.data [1, 2, 3]).octets ++
      Write.element certificatesTag (Signer.sampleCertificate Signer.sampleModulus) ++
      Write.element Tag.set signers.flatten))⟩

/-- `verify_isolated` at two signers `[s, s]` that verify, of which the first one is replaced by
`t`, with another digest. -/
theorem exists_verify_isolated_sampleBatch :
    ∃ (d : SignedData) (s t : Signer) (b b' : Bytes), d.signers = [s, s] ∧
      s.verify d none = .ok true ∧ t.verify (d.withSigners [t, s]) none = .ok false ∧
      d.octets = .ok b ∧ (d.withSigners [t, s]).octets = .ok b' ∧
      (∃ r, d.verify none = .ok r ∧ r.signers = [s, s] ∧ r ≠ .noneVerified) ∧
      (∃ r, (d.withSigners [t, s]).verify none = .ok r ∧ r.signers = [s]) ∧
      ∃ es fs x y front back front' back', ([] : List Signer).mapM Signer.octets = .ok es ∧
        [s].mapM Signer.octets = .ok fs ∧ s.octets = .ok x ∧ t.octets = .ok y ∧
        b = d.encodingWith (front ++ x :: back) ∧ b' = d.encodingWith (front' ++ y :: back') ∧
        front ++ back = SetOrder.sort (es ++ fs) ∧ front' ++ back' = SetOrder.sort (es ++ fs) := by
  obtain ⟨p, -, hsigners⟩ := exists_of_map_toOption
    (x := ofOctets (sampleBatch [Signer.sampleSigner Signer.sampleAttributes,
      Signer.sampleSigner (Attribute.messageDigest []).octets]) .default)
    (f := fun p => p.signers.map fun s =>
      ((s.verify p none).toOption, s.octets.toOption.isSome))
    (b := [(some true, true), (some false, true)]) (by decide +kernel)
  obtain ⟨s, _, hp, hs, ht⟩ := List.map_eq_cons_iff.mp hsigners
  obtain ⟨t, -, ht⟩ := List.map_eq_singleton_iff.mp ht
  simp only [Prod.mk.injEq, toOption_eq_some, Option.isSome_iff_exists] at hs ht
  obtain ⟨hs, x, hx⟩ := hs
  obtain ⟨ht, y, hy⟩ := ht
  have hok {ss : List Signer} (h : ∀ u ∈ ss, u = s) :
      ∀ u ∈ ss, ∃ b, u.verify (p.withSigners [s, s]) none = .ok b := by
    intro u hu
    rw [h u hu]
    exact ⟨true, hs⟩
  have haccepts : (p.withSigners [s, s]).accepts none s = true := by
    have : s.verify (p.withSigners [s, s]) none = .ok true := hs
    rw [accepts, this]
    rfl
  have hb : ∃ b, (p.withSigners [s, s]).octets = .ok b := by
    simp [octets, hx, bind, Except.bind, pure, Except.pure]
  have hb' : ∃ b, (p.withSigners [t, s]).octets = .ok b := by
    simp [octets, hx, hy, bind, Except.bind, pure, Except.pure]
  obtain ⟨b, hb⟩ := hb
  obtain ⟨b', hb'⟩ := hb'
  obtain ⟨hall, -, hone⟩ := verify_isolated (p.withSigners [s, s]) none
  obtain ⟨r, hr, hrs, hnone⟩ := hall (hok (by simp))
  obtain ⟨-, hanswers, hencodings⟩ := hone [] s [s] t rfl
  obtain ⟨⟨r', hr', hrs'⟩, -⟩ := hanswers ht (hok (by simp))
  simp only [signers_withSigners, List.filter_cons_of_pos haccepts, List.filter_nil,
    List.nil_append] at hrs hrs' hnone
  exact ⟨p.withSigners [s, s], s, t, b, b', rfl, hs, ht, hb, hb', ⟨r, hr, hrs, by simp [hnone]⟩,
    ⟨r', hr', hrs'⟩, hencodings b b' hb hb'⟩

end SignedData

end Pkix
