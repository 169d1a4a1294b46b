import Pkix.SignedData.Attribute
import Pkix.Proofs.Der.Elements

/-!
# Attribute sets keep their encoding

* `AttributeSet.IsSet`: the encoding is a SET, as it is in every set that was read or made.
* `AttributeSet.implicit_eq_ok`: writing a set under another tag changes that tag alone.
-/

namespace Pkix.AttributeSet

open Der

/-- The encoding of `s` is a SET. -/
def IsSet (s : AttributeSet) : Prop := ∃ content, s.encoded = Write.element Tag.set content

/-- The set `s` is one that is read under the `limits`. -/
def Readable (limits : Limits) (s : AttributeSet) : Prop := ∃ v, ofValue limits v = .ok s

theorem new_eq_ok {attributes : List Attribute} {s : AttributeSet} :
    new attributes = .ok s ↔
      s.attributes = attributes ∧
        s.encoded = Write.setOf Tag.set (attributes.map Attribute.octets) := by
  obtain ⟨as, encoded, distinct⟩ := s
  unfold new
  split
  · rename_i id h
    constructor
    · intro hs
      cases hs
    · rintro ⟨rfl, -⟩
      rw [h] at distinct
      cases distinct
  · simp only [Except.ok.injEq, mk.injEq]
    exact and_congr eq_comm eq_comm

section

variable {s : AttributeSet} {id : Oid} {v : Value} {α : Type} {read : Value → Except Error α}

theorem single_of_none (h : s.get? id = none) : s.single id read = .ok none := by
  rw [single, h]
  rfl

/-- What is looked up by `single` is what the first value of the attribute, `v`, says. -/
theorem single_of_head? {a : Attribute} (h : s.get? id = some a) (hv : a.values.head? = some v) :
    s.single id read = some <$> read v := by
  rw [single, h, Option.bind_some, hv]
  exact bind_pure_comp some (read v)

/-- What an attribute with one value, `v`, says. -/
theorem single_of_get? {x : α} (h : s.get? id = some ⟨id, [v]⟩) (hread : read v = .ok x) :
    s.single id read = .ok (some x) := by
  rw [single_of_head? h rfl, hread]
  rfl

end

theorem ofValue_eq_ok {limits : Limits} {v : Value} {s : AttributeSet} :
    ofValue limits v = .ok s ↔
      (∃ vs, (v.retag Tag.set).children limits = .ok vs ∧
        vs.mapM (Attribute.ofValue limits) = .ok s.attributes) ∧
      s.encoded = Write.element Tag.set v.content := by
  obtain ⟨as, encoded, distinct⟩ := s
  have hset : (v.retag Tag.set).octets = Write.element Tag.set v.content :=
    Value.octets_ofOctet (by decide) _
  simp only [ofValue, bind_eq_ok]
  constructor
  · rintro ⟨vs, hvs, as', has, h⟩
    split at h
    · cases h
    · cases h
      exact ⟨⟨vs, hvs, has⟩, hset⟩
  · rintro ⟨⟨vs, hvs, has⟩, rfl⟩
    refine ⟨vs, hvs, as, has, ?_⟩
    split
    · rename_i h
      rw [h] at distinct
      cases distinct
    · rw [hset]
      rfl

/-- The encoding of a set `s` that is read is a SET. -/
theorem Readable.isSet {limits : Limits} {s : AttributeSet} (h : s.Readable limits) : s.IsSet := by
  obtain ⟨v, hv⟩ := h
  exact ⟨v.content, (ofValue_eq_ok.mp hv).2⟩

/-- The set `s` is read under the `limits` from an element that is short enough to be read. -/
def Legible (limits : Limits) (s : AttributeSet) : Prop :=
  ∃ v : Value, v.Framed ∧ ofValue limits v = .ok s

/-- A set `s` that is not too long is read from an element that is not too long. -/
theorem Readable.legible {limits : Limits} {s : AttributeSet} (h : s.Readable limits)
    (hlen : s.encoded.length < UInt32.size) : s.Legible limits := by
  obtain ⟨v, hv⟩ := h
  refine ⟨v, ?_, hv⟩
  rw [(ofValue_eq_ok.mp hv).2, Write.element, List.length_cons, List.length_append] at hlen
  have : v.content.length < UInt32.size := by omega
  exact this

theorem isSet_of_new {attributes : List Attribute} {s : AttributeSet}
    (h : new attributes = .ok s) : s.IsSet :=
  ⟨_, (new_eq_ok.mp h).2⟩

/-- Writing a set `s` under another `tag` changes that tag alone. -/
theorem implicit_eq_ok {s : AttributeSet} {tag : UInt8} {b : Bytes} (hs : s.IsSet)
    (htag : Value.Short tag) :
    s.implicit tag = .ok b ↔
      s.encoded.length ≤ Limits.default.maxInput ∧ b = Write.implicit tag s.encoded := by
  obtain ⟨content, hs⟩ := hs
  have hset : (Value.ofOctet Tag.set content).octets = s.encoded := by
    rw [hs, Value.octets_ofOctet (by decide)]
  have hunder : ((Value.ofOctet Tag.set content).retag tag).octets =
      Write.implicit tag s.encoded := by
    rw [hs, Value.retag, Value.octets_ofOctet htag]
    rfl
  simp only [implicit, bind_eq_ok, pure_eq_ok]
  constructor
  · rintro ⟨v, hv, rfl⟩
    have hlen := (decode_eq_ok.mp hv).1
    rw [decode_eq_ok.mpr ⟨hlen, hset⟩] at hv
    cases hv
    exact ⟨hlen, hunder⟩
  · rintro ⟨hlen, rfl⟩
    exact ⟨_, decode_eq_ok.mpr ⟨hlen, hset⟩, hunder⟩

end Pkix.AttributeSet
