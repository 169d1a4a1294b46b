import Pkix.Proofs.Issuer.Basic

/-!
# Fields of a certificate that was written

A certificate is looked into in two ways. Its structure is read as a whole, which is where the
extensions come from, and single fields are taken from the elements of its body.

* `Reader.field_of_element`, `Reader.field_of_later`: fields under context-specific tags.
* `Certificate.Body.values`: the elements of a body of version 3 without unique identifiers.
* `Certificate.extensions_of_octets`: the extensions are those that were written.
* `Certificate.fields_of_signed`: so are the elements, if the body is within the limit.
-/

namespace Pkix

open Der

/-! ## Fields under context-specific tags -/

namespace Der.Reader

variable {α : Type} {tag : UInt8} {n : Nat} {content b rest : Bytes} {o : Option Value}

/-- The octet `tag` begins a context-specific field with the number `n`. -/
structure Begins (tag : UInt8) (n : Nat) : Prop where
  short : Value.Short tag
  allowed : allowed tag = true
  cls : (Tag.ofOctet tag).cls = .context
  number : (Tag.ofOctet tag).number.toNat = n

/-- A field `n` is taken where it was written. -/
theorem field_of_element (htag : Begins tag n) (hlen : content.length < UInt32.size)
    (h : field n (Write.element tag content ++ b) = some (o, rest)) :
    o = some (Value.ofOctet tag content) ∧ rest = b := by
  rw [Write.element, List.cons_append, field] at h
  simp only [htag.allowed, htag.cls, htag.number, Bool.not_true, Bool.false_eq_true, if_false,
    ne_eq, not_true_eq_false, Nat.lt_irrefl, or_self, if_true] at h
  split at h
  · cases h
  · rename_i v left hv
    cases h
    rw [← List.cons_append, ← Write.element, ← Value.octets_ofOctet htag.short] at hv
    obtain ⟨hframed, heq⟩ := element_eq_some hv
    obtain ⟨rfl, rfl⟩ := Value.octets_append_inj (v := Value.ofOctet tag content) hlen hframed heq
    exact ⟨rfl, rfl⟩

/-- A field `m` is missing where one with a greater number, `n`, was written. -/
theorem field_of_later {m : Nat} (htag : Begins tag n) (hlt : m < n) :
    field m (Write.element tag content ++ b) =
      some (none, Write.element tag content ++ b) := by
  rw [Write.element, List.cons_append, field]
  simp only [htag.allowed, htag.cls, htag.number, Bool.not_true, Bool.false_eq_true, if_false,
    ne_eq, not_true_eq_false, hlt, or_true, if_true]

theorem tagged_of_later {m : Nat} {read : Value → Option α} {x : Option α} (htag : Begins tag n)
    (hlt : m < n) (h : tagged m read (Write.element tag content ++ b) = some (x, rest)) :
    rest = Write.element tag content ++ b := by
  rw [tagged, bind_eq_some] at h
  simp only [field_of_later htag hlt, Option.some.injEq, Prod.mk.injEq] at h
  obtain ⟨_, _, ⟨rfl, rfl⟩, hx⟩ := h
  exact (pure_eq_some.mp hx).2.symm

/-- What is inside an EXPLICIT tag, an element under `inner`, is read where it was written. -/
theorem explicit_of_element {read : Value → Option α} {inner : UInt8} {x : Option α}
    (htag : Begins tag n) (hinner : Value.Short inner)
    (hlen : (Write.element inner content).length < UInt32.size)
    (h : explicit n read (Write.element tag (Write.element inner content) ++ b) = some (x, rest)) :
    (∃ y, x = some y ∧ read (Value.ofOctet inner content) = some y) ∧ rest = b := by
  rw [explicit, tagged, bind_eq_some] at h
  obtain ⟨o, left, hfield, h⟩ := h
  obtain ⟨rfl, rfl⟩ := field_of_element htag hlen hfield
  obtain ⟨y, left, hy, hx⟩ := bind_eq_some.mp h
  obtain ⟨hinside, rfl⟩ := lift_eq_some.mp hy
  obtain ⟨rfl, rfl⟩ := pure_eq_some.mp hx
  obtain ⟨-, hwhole⟩ := Option.ite_none_right_eq_some.mp hinside
  rw [whole_eq_some, Value.content_ofOctet, ← List.append_nil (Write.element inner content)]
    at hwhole
  rw [← List.append_nil (Write.element inner content)] at hlen
  obtain ⟨hread, -⟩ := of_next_element hinner (Write.length_lt_of_element_append hlen).1 hwhole
  exact ⟨⟨y, rfl, hread⟩, rfl⟩

end Der.Reader

/-! ## Extensions -/

namespace EncodedExtension

/-- The element with the extension `e`. -/
def written (e : EncodedExtension) : Value :=
  Value.ofOctet Tag.sequence (contentOf e.id e.critical e.value)

theorem octets_written (e : EncodedExtension) : e.written.octets = e.octets := by
  rw [written, Value.octets_ofOctet (by decide), octets, contentOf, List.append_assoc]

theorem listOctets_eq (es : List EncodedExtension) :
    listOctets es = Write.element Tag.sequence (Write.values (es.map written)) := by
  rw [listOctets, Write.values, List.flatMap_map]
  congr 2
  funext e
  exact e.octets_written.symm

/-- Extensions `es` are read as they were `written`. -/
theorem eq_of_mapM {es es' : List EncodedExtension} (hframed : ∀ v ∈ es.map written, v.Framed)
    (h : (es.map written).mapM ofValue? = some es') : es' = es := by
  induction es generalizing es' with
  | nil =>
    cases h
    rfl
  | cons e es ih =>
    simp only [List.map_cons, List.mapM_cons, bind, Option.bind_eq_some_iff, pure,
      Option.some.injEq] at h
    obtain ⟨e', he, es', hes, rfl⟩ := h
    obtain ⟨hfirst, hrest⟩ := List.forall_mem_cons.mp hframed
    obtain ⟨hid, hcritical, hvalue⟩ := eq_of_ofValue? hfirst he
    obtain ⟨id, critical, value, valid⟩ := e
    obtain ⟨id', critical', value', valid'⟩ := e'
    cases hid
    cases hcritical
    cases hvalue
    rw [ih hrest hes]

end EncodedExtension

/-! ## The body -/

namespace Certificate

/-- The body `b` is of version 3 and has the extensions `es`, but no unique identifiers; `algorithm`
and `key` are elements. -/
structure Body.Current (b : Body) (algorithm key : Value) (es : List EncodedExtension) : Prop where
  version : b.version = 2
  algorithm : b.algorithm = algorithm.octets
  publicKey : b.publicKey = key.octets
  issuerId : b.issuerId = none
  subjectId : b.subjectId = none
  extensions : b.extensions = some es

namespace Body

variable {b b' : Body} {algorithm key : Value} {es : List EncodedExtension}

/-- The element with the version, `2`. -/
def versionValue : Value := Value.ofOctet (Tag.contextOctet 0 true) (Write.integer 2)

theorem octets_versionValue :
    versionValue.octets = Write.element (Tag.contextOctet 0 true) (Write.integer 2) :=
  Value.octets_ofOctet (by decide) _

/-- The elements of `b` after the version. -/
def values (b : Body) (algorithm key : Value) (es : List EncodedExtension) : List Value :=
  [Value.ofOctet Tag.integer (BigEndian.ofInt b.serial), algorithm, b.issuer.value,
    Value.ofOctet Tag.sequence (b.notBefore.octets ++ b.notAfter.octets), b.subject.value, key,
    Value.ofOctet (Tag.contextOctet 3 true) (EncodedExtension.listOctets es)]

theorem octets_eq (h : b.Current algorithm key es) :
    b.octets =
      Write.element Tag.sequence (Write.values (versionValue :: b.values algorithm key es)) := by
  have hnone : Write.values [] = [] := rfl
  simp only [octets, h.version, h.algorithm, h.publicKey, h.issuerId, h.subjectId, h.extensions,
    fieldOctets, values, Write.values_cons, octets_versionValue, EncodedName.octets_value, hnone,
    Value.octets_ofOctet (show Value.Short Tag.integer by decide),
    Value.octets_ofOctet (show Value.Short Tag.sequence by decide),
    Value.octets_ofOctet (show Value.Short (Tag.contextOctet 3 true) by decide), Option.map_some,
    List.append_nil, List.append_assoc]
  rfl

open Reader in
/-- The extensions of a body `b'` are read as they were written. -/
theorem extensions_of_ofValue?
    (hframed : ∀ v ∈ versionValue :: b.values algorithm key es, v.Framed)
    (h : ofValue? (Value.ofOctet Tag.sequence
      (Write.values (versionValue :: b.values algorithm key es))) = some b') :
    b'.extensions = some es := by
  have hextensions : (Value.ofOctet (Tag.contextOctet 3 true)
      (EncodedExtension.listOctets es)).octets = Write.element (Tag.contextOctet 3 true)
        (Write.element Tag.sequence (Write.values (es.map EncodedExtension.written))) := by
    rw [Value.octets_ofOctet (by decide), EncodedExtension.listOctets_eq]
  have hfirst : Begins (Tag.contextOctet 0 true) 0 := by constructor <;> decide
  have hlast : Begins (Tag.contextOctet 3 true) 3 := by constructor <;> decide
  simp only [values, List.forall_mem_cons, List.not_mem_nil, false_implies, implies_true,
    and_true] at hframed
  obtain ⟨hversionLen, hserialLen, halgorithmLen, hissuerLen, hvalidityLen, hsubjectLen, hkeyLen,
    hextensionsLen⟩ := hframed
  rw [ofValue?, sequence_eq_some] at h
  simp only [bind_eq_some, pure_eq_some, Value.content_ofOctet, Write.values_cons, values,
    octets_versionValue, hextensions, Prod.exists] at h
  obtain ⟨-, version, b₁, h₁, serial, b₂, h₂, algorithm', b₃, h₃, issuer, b₄, h₄, notBefore,
    notAfter, b₅, h₅, subject, b₆, h₆, publicKey, b₇, h₇, issuerId, b₈, h₈, subjectId, b₉, h₉,
    extensions, b₁₀, h₁₀, rfl, -⟩ := h
  obtain ⟨-, rfl⟩ := explicit_of_element hfirst (by decide) hversionLen h₁
  obtain ⟨-, rfl⟩ := of_next_octets hserialLen h₂
  obtain ⟨-, rfl⟩ := of_next_octets halgorithmLen h₃
  obtain ⟨-, rfl⟩ := of_next_octets hissuerLen h₄
  obtain ⟨-, rfl⟩ := of_next_octets hvalidityLen h₅
  obtain ⟨-, rfl⟩ := of_next_octets hsubjectLen h₆
  obtain ⟨-, rfl⟩ := of_next_octets hkeyLen h₇
  obtain rfl := tagged_of_later hlast (by decide) h₈
  obtain rfl := tagged_of_later hlast (by decide) h₉
  rw [Value.Framed, Value.content_ofOctet, EncodedExtension.listOctets_eq] at hextensionsLen
  obtain ⟨⟨es', rfl, hread⟩, -⟩ :=
    explicit_of_element hlast (by decide) hextensionsLen h₁₀
  have hvalues := Nat.lt_of_le_of_lt (Write.length_le_element Tag.sequence _) hextensionsLen
  have hes := Write.framed_of_values hvalues
  exact congrArg some (EncodedExtension.eq_of_mapM hes (mapM_of_listOf hes hread))

end Body

/-! ## The certificate -/

variable {b : Body} {algorithm key : Value} {es : List EncodedExtension} {c : Certificate}

/-- The extensions of a certificate `c` are those that were written, `es`. -/
theorem extensions_of_octets {a signature : Bytes} (hb : b.Current algorithm key es)
    (hc : c.octets = Layout.octets ⟨b, a, signature⟩) : c.layout.body.extensions = some es := by
  obtain ⟨v, hframed, hoctets, hread⟩ := Reader.exists_of_whole_next c.layout_eq
  obtain ⟨his, hread⟩ := Reader.sequence_eq_some.mp hread
  rw [Value.is_iff.mp his, Value.octets_ofOctet (by decide), hc, Layout.octets] at hoctets
  have hcontent := Write.content_of_element hoctets
  rw [List.append_assoc, Body.octets_eq hb] at hcontent
  rw [Value.Framed, ← hcontent] at hframed
  have hlen := (Write.length_lt_of_element_append hframed).1
  rw [← hcontent] at hread
  simp only [Reader.bind_eq_some, Reader.pure_eq_some] at hread
  obtain ⟨body, left, hbody, _, _, -, _, _, -, hlayout, -⟩ := hread
  rw [← hlayout]
  exact Body.extensions_of_ofValue? (Write.framed_of_values hlen)
    (Reader.of_next_element (by decide) hlen hbody).1

/-- The fields of a certificate `c` are those that were written, if the body `b` is within the
limit. -/
theorem fields_of_signed {a : Algorithm} {signature : Bytes} (hb : b.Current algorithm key es)
    (hs : c.signed = .ok ⟨b.octets, a, signature⟩) :
    c.fields = if b.octets.length ≤ Limits.default.maxInput then .ok (b.values algorithm key es)
      else .error (.malformed (.inputTooLong b.octets.length Limits.default.maxInput)) := by
  rw [fields, hs]
  by_cases hlen : b.octets.length ≤ Limits.default.maxInput
  · have hall := hlen
    rw [Body.octets_eq hb] at hall
    have hdecode : decode b.octets = .ok (Value.ofOctet Tag.sequence
        (Write.values (Body.versionValue :: b.values algorithm key es))) := by
      rw [Body.octets_eq hb]
      exact decode_element (by decide) hall
    have hchildren : (Value.ofOctet Tag.sequence (Write.values
        (Body.versionValue :: b.values algorithm key es))).children .default =
          .ok (Body.versionValue :: b.values algorithm key es) :=
      Value.children_eq_ok.mpr ⟨rfl, rfl,
        Write.framed_of_values (Write.lt_size_of_element_le hall), (by decide : 8 ≤ 65536)⟩
    have hfirst : Body.versionValue.is (Tag.contextOctet 0 true) = true := Value.is_ofOctet _ _
    rw [if_pos hlen]
    simp only [bind, Except.bind, hdecode, hchildren, hfirst, if_true]
    rfl
  · rw [if_neg hlen]
    simp only [bind, Except.bind, decode, Cursor.start, Limits.check,
      if_pos (Nat.not_le.mp hlen)]

end Certificate

end Pkix
