import Pkix.SignedData.Signer
import Pkix.Proofs.Algorithm
import Pkix.Proofs.SignedData.Attribute

/-!
# Signers: reading and writing are inverse

* `Signer.Readable`: the rules on signers that the type does not carry.
* `Signer.ofValue_eq_ok`: either grammar accepts exactly what is written for signers whose parts can
  be read, the legacy one also with stray sets (`Signer.Stray`) before the attributes.
* `Signer.readable_of_ofValue`, `Signer.ofValue_current_eq_ok`: so what either grammar accepts is
  readable, and the current grammar accepts exactly what is written for readable signers.
* `Signer.octets_eq_ok`: what is written for a signer.
-/

namespace Pkix

open Der

theorem Name.octets_of_ofValue {limits : Limits} {v : Value} {n : Name}
    (h : Name.ofValue limits v = .ok n) : n.octets = v.octets := by
  simp only [Name.ofValue, ite_error_eq_ok, bind_eq_ok, pure_eq_ok] at h
  obtain ⟨-, _, -, _, -, rfl⟩ := h
  rfl

/-- The name `n` is one that is read under the `limits`. -/
def Name.Readable (limits : Limits) (n : Name) : Prop := ∃ v, Name.ofValue limits v = .ok n

namespace Signer

/-- A signer `s` as it is read: each part obeys the rules of its own reader. -/
structure Readable (limits : Limits) (s : Signer) : Prop where
  issuer : s.issuer.Readable limits
  digestAlgorithm : s.digestAlgorithm.Readable
  authenticated : ∀ set ∈ s.authenticated, set.Readable limits
  encryptionAlgorithm : s.encryptionAlgorithm.Readable
  unauthenticated : ∀ set ∈ s.unauthenticated, set.Readable limits

/-- The octets of attributes `s`, if there are any, under a `tag`. -/
def under (tag : UInt8) : Option AttributeSet → Bytes
  | some s => Write.implicit tag s.encoded
  | none => []

/-- Issuer and serial number of `s`. -/
def identity (s : Signer) : Bytes :=
  Write.element Tag.sequence (s.issuer.octets ++ Write.integer s.serial)

/-- What stands inside the SEQUENCE of a signer `s`. -/
def body (s : Signer) : Bytes :=
  Write.word s.version ++ (s.identity ++ (s.digestAlgorithm.octets ++
    (under authenticatedTag s.authenticated ++ (s.encryptionAlgorithm.octets ++
      (Write.octetString s.signature ++ under unauthenticatedTag s.unauthenticated)))))

/-- The value that a signer `s` is written as. -/
def value (s : Signer) : Value := Value.ofOctet Tag.sequence s.body

theorem octets_value (s : Signer) : s.value.octets = Write.element Tag.sequence s.body :=
  Value.octets_ofOctet (by decide) _

/-! ## Stray sets -/

/-- What may stand before a set of attributes without being looked at: a plain set in the `.legacy`
grammar, nothing in the `.current` one. -/
def Stray : Grammar → Bytes → Prop
  | .current, a => a = []
  | .legacy, a =>
    a = [] ∨ ∃ content : Bytes, content.length < UInt32.size ∧ a = Write.element Tag.set content

theorem stray_nil (g : Grammar) : Stray g [] := by
  cases g with
  | current => rfl
  | legacy => exact .inl rfl

/-- What stands inside the SEQUENCE of a signer `s`, with more octets, `a` and `u`, before either
set of attributes. -/
def bodyWith (s : Signer) (a u : Bytes) : Bytes :=
  Write.word s.version ++ (s.identity ++ (s.digestAlgorithm.octets ++
    ((a ++ under authenticatedTag s.authenticated) ++ (s.encryptionAlgorithm.octets ++
      (Write.octetString s.signature ++ (u ++ under unauthenticatedTag s.unauthenticated))))))

/-- The value of a signer `s` with more octets, `a` and `u`, before either set of attributes. -/
def valueWith (s : Signer) (a u : Bytes) : Value := Value.ofOctet Tag.sequence (s.bodyWith a u)

/-! ## The parts -/

theorem readIdentity_eq_ok {c c' : Cursor} {issuer : Name} {serial : Int} :
    readIdentity c = .ok ((issuer, serial), c') ↔
      c.Step (Write.element Tag.sequence (issuer.octets ++ Write.integer serial)) c' ∧
        (issuer.octets ++ Write.integer serial).length < UInt32.size ∧
        issuer.Readable c.limits := by
  simp only [readIdentity, bind_eq_ok, pure_eq_ok, Prod.exists, Prod.mk.injEq,
    Cursor.enter_eq_ok (show Value.Short Tag.sequence by decide), Cursor.value_eq_ok,
    Cursor.integer_eq_ok, Cursor.finish_eq_ok]
  constructor
  · rintro ⟨_, c₁, ⟨content, rfl, hstep, hlen⟩, v, c₂, ⟨hv, -⟩, n, c₃, ⟨hn, -⟩, -, hrest, name,
      hname, ⟨rfl, rfl⟩, rfl⟩
    have hcontent := hv.rest
    rw [hn.rest, hrest, List.append_nil, Cursor.rest_ofBuffer,
      ← Name.octets_of_ofValue hname] at hcontent
    rw [hcontent] at hstep hlen
    exact ⟨hstep, hlen, v, hstep.limits ▸ hname⟩
  · rintro ⟨hstep, hlen, v, hname⟩
    rw [Name.octets_of_ofValue hname] at hstep hlen
    have hle := hlen
    simp only [Write.element, Write.integer, List.length_cons, List.length_append] at hle
    obtain ⟨c₁, hv, hrest₁, -⟩ := Cursor.exists_step
      (Cursor.rest_ofBuffer (v.octets ++ Write.integer serial) c.limits)
    obtain ⟨c₂, hn, hrest₂, -⟩ := Cursor.exists_step (hrest₁.trans (List.append_nil _).symm)
    exact ⟨_, c', ⟨_, rfl, hstep, hlen⟩, v, c₁, ⟨hv, Value.framed_of_length (by omega)⟩, serial, c₂,
      ⟨hn, by omega⟩, (), hrest₂, issuer, hstep.limits ▸ hname, ⟨rfl, rfl⟩, rfl⟩

theorem length_implicit (tag : UInt8) {s : AttributeSet} (h : s.IsSet) :
    (Write.implicit tag s.encoded).length = s.encoded.length := by
  obtain ⟨content, h⟩ := h
  rw [h]
  rfl

/-- A set `s` that is read under a `tag` stands there under that tag. -/
theorem implicit_of_ofValue {limits : Limits} {v : Value} {s : AttributeSet} (tag : UInt8)
    (h : AttributeSet.ofValue limits v = .ok s) :
    Write.implicit tag s.encoded = Write.element tag v.content := by
  rw [(AttributeSet.ofValue_eq_ok.mp h).2]
  rfl

/-- A stray set is passed over by `skipSet` if there is one. -/
theorem skipSet_eq_ok {c c' : Cursor} {g : Grammar} :
    skipSet c g = .ok c' ↔
      ∃ a, Stray g a ∧ c.Step a c' ∧ (g = .legacy → a = [] → c.peek ≠ some Tag.set) := by
  cases g with
  | current => simp [skipSet, Stray, Cursor.step_nil, eq_comm]
  | legacy =>
    simp only [skipSet, bind_eq_ok, pure_eq_ok, Prod.exists, Stray, true_implies]
    constructor
    · rintro ⟨skipped, _, hskip, rfl⟩
      cases skipped with
      | none =>
        obtain ⟨hpeek, rfl⟩ := Cursor.optional_eq_none.mp hskip
        exact ⟨[], .inl rfl, Cursor.step_nil.mpr rfl, fun _ => hpeek⟩
      | some v =>
        obtain ⟨-, hstep, hframed⟩ := (Cursor.optional_eq_some (by decide)).mp hskip
        exact ⟨_, .inr ⟨v.content, hframed, rfl⟩, hstep, by simp [Write.element]⟩
    · rintro ⟨a, rfl | ⟨content, hlen, rfl⟩, hstep, hpeek⟩
      · exact ⟨none, c', Cursor.optional_eq_none.mpr ⟨hpeek rfl, Cursor.step_nil.mp hstep⟩, rfl⟩
      · exact ⟨some (Value.ofOctet Tag.set content), c',
          (Cursor.optional_eq_some (by decide)).mpr ⟨rfl, hstep, hlen⟩, rfl⟩

/-- Attributes are read under a `tag` exactly where what is written for them comes next, after
whatever is passed over, `a`. -/
theorem readAttributes_eq_ok {c c' : Cursor} {g : Grammar} {tag : UInt8} {o : Option AttributeSet}
    (htag : Value.Short tag) (hset : tag ≠ Tag.set) (hrest : c'.rest.head? ≠ some tag)
    (hrest' : c'.rest.head? ≠ some Tag.set) :
    readAttributes c g tag = .ok (o, c') ↔
      ∃ a, Stray g a ∧ c.Step (a ++ under tag o) c' ∧ ∀ s ∈ o, s.Legible c.limits := by
  simp only [readAttributes, bind_eq_ok, Prod.exists]
  constructor
  · rintro ⟨c₁, hskip, o', c₂, hopt, hread⟩
    obtain ⟨a, ha, hstep, -⟩ := skipSet_eq_ok.mp hskip
    refine ⟨a, ha, ?_⟩
    cases o' with
    | none =>
      obtain ⟨-, rfl⟩ := Cursor.optional_eq_none.mp hopt
      cases hread
      exact ⟨by rwa [under, List.append_nil], by simp⟩
    | some v =>
      obtain ⟨-, hstep', hframed⟩ := (Cursor.optional_eq_some htag).mp hopt
      simp only [bind_eq_ok, pure_eq_ok, Prod.mk.injEq] at hread
      obtain ⟨s, hs, rfl, rfl⟩ := hread
      rw [hstep'.limits, hstep.limits] at hs
      rw [under, implicit_of_ofValue tag hs]
      exact ⟨Cursor.step_append.mpr ⟨c₁, hstep, hstep'⟩, by simpa using ⟨v, hframed, hs⟩⟩
  · rintro ⟨a, ha, hboth, hread⟩
    obtain ⟨c₁, hstep, hunder⟩ := Cursor.step_append.mp hboth
    have hpeek : g = .legacy → a = [] → c.peek ≠ some Tag.set := by
      rintro - rfl
      obtain rfl := Cursor.step_nil.mp hstep
      rw [Cursor.peek, hunder.rest]
      cases o with
      | none => exact hrest'
      | some s =>
        obtain ⟨v, -, hs⟩ := hread s rfl
        rw [under, implicit_of_ofValue tag hs, Write.head?_element_append]
        simpa using hset
    refine ⟨c₁, skipSet_eq_ok.mpr ⟨a, ha, hstep, hpeek⟩, ?_⟩
    cases o with
    | none =>
      obtain rfl := Cursor.step_nil.mp hunder
      exact ⟨none, c', Cursor.optional_eq_none.mpr ⟨hrest, rfl⟩, rfl⟩
    | some s =>
      obtain ⟨v, hframed, hs⟩ := hread s rfl
      rw [under, implicit_of_ofValue tag hs] at hunder
      rw [← hstep.limits] at hs
      refine ⟨some (v.retag tag), c', (Cursor.optional_eq_some htag).mpr ⟨rfl, hunder, hframed⟩, ?_⟩
      simp only [bind_eq_ok, pure_eq_ok, Prod.mk.injEq, hunder.limits]
      exact ⟨s, hs, rfl, trivial⟩

/-! ## The whole -/

theorem head?_algorithm (a : Algorithm) (b : Bytes) :
    (a.octets ++ b).head? = some Tag.sequence := by
  rw [Algorithm.octets_eq]
  rfl

/-- A signer `s` as it is read, each part short enough to be read. -/
structure Legible (limits : Limits) (s : Signer) : Prop where
  issuer : s.issuer.Readable limits
  digestAlgorithm : s.digestAlgorithm.Readable
  authenticated : ∀ set ∈ s.authenticated, set.Legible limits
  encryptionAlgorithm : s.encryptionAlgorithm.Readable
  unauthenticated : ∀ set ∈ s.unauthenticated, set.Legible limits
  length_identity : (s.issuer.octets ++ Write.integer s.serial).length < UInt32.size
  length_digestAlgorithm : s.digestAlgorithm.content.length < UInt32.size
  length_encryptionAlgorithm : s.encryptionAlgorithm.content.length < UInt32.size
  length_signature : s.signature.length < UInt32.size

theorem Legible.readable {limits : Limits} {s : Signer} (h : s.Legible limits) :
    s.Readable limits where
  issuer := h.issuer
  digestAlgorithm := h.digestAlgorithm
  authenticated set hset := have ⟨v, _, hv⟩ := h.authenticated set hset; ⟨v, hv⟩
  encryptionAlgorithm := h.encryptionAlgorithm
  unauthenticated set hset := have ⟨v, _, hv⟩ := h.unauthenticated set hset; ⟨v, hv⟩

/-- **Signers.** A grammar `g` reads a value `v` as a signer `s` exactly where it is what is written
for `s`, but for strays `a` and `u`. -/
theorem ofValue_eq_ok {limits : Limits} {g : Grammar} {v : Value} {s : Signer} :
    ofValue limits g v = .ok s ↔
      s.Legible limits ∧ ∃ a u, Stray g a ∧ Stray g u ∧ v = s.valueWith a u := by
  have hauthTag : Value.Short authenticatedTag := by decide
  have hunauthTag : Value.Short unauthenticatedTag := by decide
  -- after either set comes the other algorithm, or nothing
  have hnext {c c' : Cursor} {a : Algorithm} (h : c.Step a.octets c') :
      c.rest.head? = some Tag.sequence := by rw [h.rest, head?_algorithm]
  have hauth {c c₁ c' : Cursor} {o : Option AttributeSet} {a : Algorithm}
      (h : c'.Step a.octets c₁) := readAttributes_eq_ok (c := c) (g := g) (o := o) hauthTag
        (by decide) (by rw [hnext h]; decide) (by rw [hnext h]; decide)
  have hunauth {c c' : Cursor} {o : Option AttributeSet} (h : c'.rest = []) :=
    readAttributes_eq_ok (c := c) (g := g) (o := o) hunauthTag (by decide) (by rw [h]; decide)
      (by rw [h]; decide)
  simp only [ofValue, ite_error_eq_ok, bind_eq_ok, pure_eq_ok, Prod.exists, Value.cursor,
    Cursor.word_eq_ok, Algorithm.read_eq_ok, Cursor.octetString_eq_ok, Value.is_iff,
    readIdentity_eq_ok, Cursor.isEmpty, List.isEmpty_iff]
  constructor
  · rintro ⟨hseq, version, c₁, hversion, issuer, serial, c₂, ⟨hidentity, hilen, hissuer⟩, digest,
      c₃, ⟨hdigest, hdlen, hdread⟩, auth, c₄, hread, encryption, c₅, ⟨hencryption, helen, heread⟩,
      signature, c₆, ⟨hsignature, hslen⟩, unauth, c₇, hread', hempty, rfl⟩
    obtain ⟨a, ha, hauth, hlegible⟩ := (hauth hencryption).mp hread
    obtain ⟨u, hu, hunauth, hlegible'⟩ := (hunauth hempty).mp hread'
    have hlimits₁ : c₁.limits = limits := hversion.limits
    have hlimits₃ : c₃.limits = limits := by rw [hdigest.limits, hidentity.limits, hlimits₁]
    have hlimits₆ : c₆.limits = limits := by
      rw [hsignature.limits, hencryption.limits, hauth.limits, hlimits₃]
    rw [hlimits₁] at hissuer
    rw [hlimits₃] at hlegible
    rw [hlimits₆] at hlegible'
    refine ⟨⟨hissuer, hdread, hlegible, heread, hlegible', hilen, hdlen, helen, hslen⟩, a, u, ha,
      hu, ?_⟩
    rw [hseq, ← Cursor.rest_ofBuffer v.content limits, hversion.rest, hidentity.rest, hdigest.rest,
      hauth.rest, hencryption.rest, hsignature.rest, hunauth.rest, hempty, List.append_nil]
    rfl
  · rintro ⟨h, a, u, ha, hu, rfl⟩
    obtain ⟨c₁, hversion, hrest₁, hlimits₁⟩ :=
      Cursor.exists_step (Cursor.rest_ofBuffer (s.bodyWith a u) limits)
    obtain ⟨c₂, hidentity, hrest₂, hlimits₂⟩ := Cursor.exists_step hrest₁
    obtain ⟨c₃, hdigest, hrest₃, hlimits₃⟩ := Cursor.exists_step hrest₂
    obtain ⟨c₄, hstep, hrest₄, hlimits₄⟩ := Cursor.exists_step hrest₃
    obtain ⟨c₅, hencryption, hrest₅, hlimits₅⟩ := Cursor.exists_step hrest₄
    obtain ⟨c₆, hsignature, hrest₆, hlimits₆⟩ := Cursor.exists_step hrest₅
    obtain ⟨c₇, hstep', hrest₇, -⟩ := Cursor.exists_step (hrest₆.trans (List.append_nil _).symm)
    rw [Cursor.limits_ofBuffer] at hlimits₁
    have hissuer := h.issuer
    have hlegible := h.authenticated
    have hlegible' := h.unauthenticated
    rw [← hlimits₁] at hissuer
    rw [← hlimits₁, ← hlimits₂, ← hlimits₃] at hlegible
    rw [← hlimits₁, ← hlimits₂, ← hlimits₃, ← hlimits₄, ← hlimits₅, ← hlimits₆] at hlegible'
    exact ⟨rfl, _, c₁, hversion, s.issuer, s.serial, c₂,
      ⟨hidentity, h.length_identity, hissuer⟩, _, c₃,
      ⟨hdigest, h.length_digestAlgorithm, h.digestAlgorithm⟩, _, c₄,
      (hauth hencryption).mpr ⟨a, ha, hstep, hlegible⟩, _, c₅,
      ⟨hencryption, h.length_encryptionAlgorithm, h.encryptionAlgorithm⟩, _, c₆,
      ⟨hsignature, h.length_signature⟩, _, c₇, (hunauth hrest₇).mpr ⟨u, hu, hstep', hlegible'⟩,
      hrest₇, rfl⟩

theorem length_under_le (s : Signer) (a u : Bytes) :
    (under authenticatedTag s.authenticated).length ≤ (s.bodyWith a u).length ∧
      (under unauthenticatedTag s.unauthenticated).length ≤ (s.bodyWith a u).length := by
  simp only [bodyWith, List.length_append]
  omega

/-- What is read in either grammar obeys the rules of signers, and its attributes are no longer than
the octets of `v`. -/
theorem readable_of_ofValue {limits : Limits} {g : Grammar} {v : Value} {s : Signer}
    (h : ofValue limits g v = .ok s) :
    s.Readable limits ∧
      (∀ set ∈ s.authenticated, set.encoded.length ≤ v.content.length) ∧
      ∀ set ∈ s.unauthenticated, set.encoded.length ≤ v.content.length := by
  obtain ⟨hlegible, a, u, -, -, rfl⟩ := ofValue_eq_ok.mp h
  have hread := hlegible.readable
  obtain ⟨hauth, hunauth⟩ := s.length_under_le a u
  refine ⟨hread, fun set hset => ?_, fun set hset => ?_⟩
  · rwa [Option.mem_def.mp hset, under,
      length_implicit _ (hread.authenticated set hset).isSet] at hauth
  · rwa [Option.mem_def.mp hset, under,
      length_implicit _ (hread.unauthenticated set hset).isSet] at hunauth

/-- The parts of a readable signer `s` that is not too long are not too long either. -/
theorem Readable.legible {limits : Limits} {s : Signer} (h : s.Readable limits)
    (hlen : s.body.length < UInt32.size) : s.Legible limits := by
  obtain ⟨hauth, hunauth⟩ := s.length_under_le [] []
  change _ ≤ s.body.length at hauth hunauth
  have hlens := hlen
  simp only [body, identity, List.length_append, Algorithm.octets_eq, Write.octetString,
    Write.element, List.length_cons] at hlens
  refine ⟨h.issuer, h.digestAlgorithm, fun set hset => ?_, h.encryptionAlgorithm,
    fun set hset => ?_, by rw [List.length_append]; omega, by omega, by omega, by omega⟩
  · have hread := h.authenticated set hset
    rw [Option.mem_def.mp hset, under, length_implicit _ hread.isSet] at hauth
    exact hread.legible (by omega)
  · have hread := h.unauthenticated set hset
    rw [Option.mem_def.mp hset, under, length_implicit _ hread.isSet] at hunauth
    exact hread.legible (by omega)

/-- **The current grammar** reads a value `v` as a signer `s` exactly where it is what is written
for `s`. -/
theorem ofValue_current_eq_ok {limits : Limits} {v : Value} {s : Signer} (hv : v.Framed) :
    ofValue limits .current v = .ok s ↔ v = s.value ∧ s.Readable limits := by
  rw [ofValue_eq_ok]
  constructor
  · rintro ⟨hlegible, _, _, rfl, rfl, rfl⟩
    exact ⟨rfl, hlegible.readable⟩
  · rintro ⟨rfl, hread⟩
    exact ⟨hread.legible hv, [], [], rfl, rfl, rfl⟩

theorem attributesOctets_eq_ok {tag : UInt8} {o : Option AttributeSet} {b : Bytes}
    (htag : Value.Short tag) (ho : ∀ s ∈ o, s.IsSet) :
    attributesOctets tag o = .ok b ↔
      (∀ s ∈ o, s.encoded.length ≤ Limits.default.maxInput) ∧ b = under tag o := by
  cases o with
  | none => simp [attributesOctets, under, eq_comm]
  | some s => simp [attributesOctets, under, AttributeSet.implicit_eq_ok (ho s rfl) htag]

/-- The attributes of `s` are not too long to be written. -/
def Writable (s : Signer) : Prop :=
  (∀ set ∈ s.authenticated, set.encoded.length ≤ Limits.default.maxInput) ∧
    ∀ set ∈ s.unauthenticated, set.encoded.length ≤ Limits.default.maxInput

/-- The attributes of `s` are sets. -/
def HasSets (s : Signer) : Prop :=
  (∀ set ∈ s.authenticated, set.IsSet) ∧ ∀ set ∈ s.unauthenticated, set.IsSet

theorem Readable.hasSets {limits : Limits} {s : Signer} (h : s.Readable limits) : s.HasSets :=
  ⟨fun set hset => (h.authenticated set hset).isSet,
    fun set hset => (h.unauthenticated set hset).isSet⟩

/-- What `octets` writes for a signer `s`. -/
theorem octets_eq_ok {s : Signer} {b : Bytes} (h : s.HasSets) :
    s.octets = .ok b ↔ s.Writable ∧ s.value.octets = b := by
  simp only [octets_value, octets, bind_eq_ok, pure_eq_ok,
    attributesOctets_eq_ok (show Value.Short authenticatedTag by decide) h.1,
    attributesOctets_eq_ok (show Value.Short unauthenticatedTag by decide) h.2]
  constructor
  · rintro ⟨_, ⟨ha, rfl⟩, _, ⟨hu, rfl⟩, rfl⟩
    exact ⟨⟨ha, hu⟩, by simp [body, identity]⟩
  · rintro ⟨⟨ha, hu⟩, rfl⟩
    exact ⟨_, ⟨ha, rfl⟩, _, ⟨hu, rfl⟩, by simp [body, identity]⟩

/-- Whatever its attributes are, a signer `s` is written as a SEQUENCE. -/
theorem exists_content_of_octets {s : Signer} {b : Bytes} (h : s.octets = .ok b) :
    ∃ content, b = Write.element Tag.sequence content := by
  simp only [octets, bind_eq_ok, pure_eq_ok] at h
  obtain ⟨_, -, _, -, rfl⟩ := h
  exact ⟨_, rfl⟩

theorem exists_content_of_mapM {ss : List Signer} {es : List Bytes} (h : ss.mapM octets = .ok es) :
    ∀ e ∈ es, ∃ content, e = Write.element Tag.sequence content := by
  intro e he
  obtain ⟨s, -, hs⟩ := exists_of_mapM h e he
  exact exists_content_of_octets hs

theorem exists_value_of_octets {s : Signer} {b : Bytes} (h : s.octets = .ok b) :
    ∃ v : Value, b = v.octets := by
  obtain ⟨content, rfl⟩ := exists_content_of_octets h
  exact ⟨Value.ofOctet Tag.sequence content, (Value.octets_ofOctet (by decide) _).symm⟩

theorem exists_value_of_mapM {ss : List Signer} {es : List Bytes}
    (h : ss.mapM octets = .ok es) : ∀ e ∈ es, ∃ v : Value, e = v.octets := by
  intro e he
  obtain ⟨s, -, hs⟩ := exists_of_mapM h e he
  exact exists_value_of_octets hs

end Signer

end Pkix
