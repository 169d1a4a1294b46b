import Pkix.Proofs.Der.Encoder

/-!
# Two ways of IMPLICIT tagging

The identifier octet of an encoded element can be replaced where the element is written, and the
tag of a value can be replaced before it is written. A tag octet that replaces an identifier octet
spells a whole tag, so that there is one result wherever the old tag and the new one take up one
octet each.

* `Tag.tail_octets_eq_iff`: which tags differ in their first octet at most.
* `Value.implicit_octets_iff`: where both ways have one result.
* `Encoder.on_implicit`: what the call on an encoder appends.
* `Encoder.implicit_agrees`: what either way writes, and what that reads as.
-/

namespace Pkix

namespace Base128

/-- Numbers `m` and `n` have one spelling each. -/
theorem encode_inj {m n : Nat} (h : encode m = encode n) : m = n := by
  have hbound : 128 * (m + n + 1) % 128 = 0 := by omega
  have hm : decode (128 * (m + n + 1)) (encode m) = .ok (m, []) :=
    (decode_eq_ok hbound).mpr ⟨(List.append_nil _).symm, by omega⟩
  have hn : decode (128 * (m + n + 1)) (encode n) = .ok (n, []) :=
    (decode_eq_ok hbound).mpr ⟨(List.append_nil _).symm, by omega⟩
  rw [h, hn] at hm
  cases hm
  rfl

end Base128

namespace Der

/-! ## Identifier octets -/

namespace Tag

/-- After the first octet of `t.octets` come the groups of a number of 31 or more. -/
theorem tail_octets (t : Tag) :
    t.octets.tail = if t.number.toNat < 31 then [] else Base128.encode t.number.toNat := by
  rw [octets]
  split <;> rfl

/-- `s` and `t` differ in their first octet at most where each takes up one octet, and where their
numbers are the same. -/
theorem tail_octets_eq_iff {s t : Tag} :
    s.octets.tail = t.octets.tail ↔
      s.number.toNat < 31 ∧ t.number.toNat < 31 ∨ s.number = t.number := by
  rw [tail_octets, tail_octets]
  by_cases hs : s.number.toNat < 31 <;> by_cases ht : t.number.toNat < 31
  · simp [hs, ht]
  · have hne : s.number ≠ t.number := fun h => ht (h ▸ hs)
    simp [hs, ht, hne, (Base128.encode_ne_nil _).symm]
  · have hne : s.number ≠ t.number := fun h => hs (h ▸ ht)
    simp [hs, ht, hne, Base128.encode_ne_nil]
  · simp only [hs, ht, if_false, and_self, false_or]
    constructor
    · intro h
      exact UInt32.toNat_inj.mp (Base128.encode_inj h)
    · intro h
      rw [h]

/-- The tag that the octet `x` spells begins with `x`, also where `x` asks for more. -/
theorem octets_ofOctet_eq (x : UInt8) : (ofOctet x).octets = x :: (ofOctet x).octets.tail := by
  have hlead := lead_ofOctet x
  rw [octets, toNat_number_ofOctet]
  by_cases hlow : x.toNat % 32 < 31
  · rw [if_pos hlow, hlead]
    rfl
  · have h31 : x.toNat % 32 = 31 := by omega
    rw [h31] at hlead
    rw [if_neg hlow, hlead]
    rfl

theorem octets_eq_cons (t : Tag) : ∃ x, t.octets = x :: t.octets.tail := by
  rw [octets]
  split <;> exact ⟨_, rfl⟩

end Tag

/-! ## One element -/

/-- **Where both ways have one result.** Replacing the first octet of `v.octets` and retagging `v`
agree on short tags and on tags of one number. -/
theorem Value.implicit_octets_iff (v : Value) (tag : UInt8) :
    Write.implicit tag v.octets = (v.retag tag).octets ↔
      v.tag.number.toNat < 31 ∧ tag.toNat % 32 < 31 ∨ v.tag.number.toNat = tag.toNat % 32 := by
  obtain ⟨x, hx⟩ := v.tag.octets_eq_cons
  have himplicit : Write.implicit tag v.octets =
      tag :: (v.tag.octets.tail ++ Length.octets v.content.length ++ v.content) := by
    rw [octets, header, hx]
    rfl
  have hretag : (v.retag tag).octets =
      tag :: ((Tag.ofOctet tag).octets.tail ++ Length.octets v.content.length ++ v.content) := by
    rw [octets, header]
    show (Tag.ofOctet tag).octets ++ _ ++ _ = _
    rw [Tag.octets_ofOctet_eq]
    rfl
  rw [himplicit, hretag]
  simp only [List.cons.injEq, true_and, List.append_cancel_right_eq]
  rw [Tag.tail_octets_eq_iff, Tag.toNat_number_ofOctet, ← UInt32.toNat_inj,
    Tag.toNat_number_ofOctet]

/-- A value `v` that is written alone is read back, and nothing is left. -/
theorem Cursor.value_octets {v : Value} (h : v.Framed) (limits : Limits) :
    ∃ c, (ofBuffer v.octets limits).value = .ok (v, c) ∧ c.finish = .ok () := by
  obtain ⟨c, hstep, hrest, -⟩ := exists_step (c := ofBuffer v.octets limits) (r := [])
    (List.append_nil v.octets).symm
  exact ⟨c, value_eq_ok.mpr ⟨hstep, h⟩, finish_eq_ok.mpr hrest⟩

/-! ## Calls on an encoder -/

namespace Encoder

theorem on_retagged (tag : UInt8) (b buffer : Bytes) :
    (retagged tag b).on buffer = (.ok (), buffer ++ Write.implicit tag b) := by
  cases b with
  | nil =>
    rw [Write.implicit, List.append_nil]
    rfl
  | cons x rest =>
    show (_, buffer ++ [tag] ++ rest) = _
    rw [Write.implicit, List.append_assoc]
    rfl

theorem on_implicit (tag : UInt8) (steps : List Step) (buffer : Bytes) :
    (Step.implicit tag steps).put.on buffer =
      (.ok (), buffer ++ Write.implicit tag (session steps []).2) := by
  rw [Step.put, on_retagged]

/-- **IMPLICIT tagging, either way.** A value `v` whose tag was replaced by the one that the octet
`tag` spells is appended as an element that reads as `v.content` under that tag, whatever the octet.
Where `tag` and the tag of `v` take up one octet each, or have the same number, `Step.implicit`
appends the same element. -/
theorem implicit_agrees (v : Value) (tag : UInt8) (steps : List Step) (buffer : Bytes)
    (hframed : v.content.length < UInt32.size) (hsteps : (session steps []).2 = v.octets) :
    (Step.value (v.retag tag)).put.on buffer = (.ok (), buffer ++ (v.retag tag).octets) ∧
    (∀ limits, ∃ c, (Cursor.ofBuffer (v.retag tag).octets limits).value =
        .ok (⟨Tag.ofOctet tag, v.content⟩, c) ∧ c.finish = .ok ()) ∧
    (v.tag.number.toNat < 31 ∧ tag.toNat % 32 < 31 ∨ v.tag.number.toNat = tag.toNat % 32 →
      (Step.implicit tag steps).put.on buffer = (Step.value (v.retag tag)).put.on buffer) := by
  have hvalue : (Step.value (v.retag tag)).put.on buffer =
      (.ok (), buffer ++ (v.retag tag).octets) := by
    rw [Step.put, on_value]
  refine ⟨hvalue, fun limits => ?_, fun hshort => ?_⟩
  · have hretag : (v.retag tag).Framed := hframed
    exact Cursor.value_octets hretag limits
  · rw [hvalue, on_implicit, hsteps, (v.implicit_octets_iff tag).mpr hshort]

/-- `implicit_agrees` at an OCTET STRING under `[0]`, after a NULL. -/
theorem implicit_agrees_octetString :
    (Step.implicit 0x80 [.octetString [0x2A]]).put.on [0x05, 0x00] =
      (.ok (), [0x05, 0x00, 0x80, 0x01, 0x2A]) := by
  obtain ⟨hvalue, -, himplicit⟩ := implicit_agrees (.ofOctet Tag.octetString [0x2A]) 0x80
    [.octetString [0x2A]] [0x05, 0x00] (by decide) (by decide +kernel)
  have hoctets :
      ((Value.ofOctet Tag.octetString [0x2A]).retag 0x80).octets = [0x80, 0x01, 0x2A] := by
    decide +kernel
  rw [himplicit (by decide), hvalue, hoctets]
  rfl

/-- The two ways come apart where the new tag octet asks for more octets (`0x9F`), and where the old
tag has more of them. -/
theorem implicit_ne_retag :
    (octets (Step.implicit 0x9F [.value ⟨⟨.universal, false, 4⟩, [0x00]⟩]).put =
        [0x9F, 0x01, 0x00] ∧
      octets (Step.value ((Value.mk ⟨.universal, false, 4⟩ [0x00]).retag 0x9F)).put =
        [0x9F, 0x1F, 0x01, 0x00]) ∧
    (octets (Step.implicit 0xA0 [.value ⟨⟨.context, true, 200⟩, [0x05, 0x00]⟩]).put =
        [0xA0, 0x81, 0x48, 0x02, 0x05, 0x00] ∧
      octets (Step.value ((Value.mk ⟨.context, true, 200⟩ [0x05, 0x00]).retag 0xA0)).put =
        [0xA0, 0x02, 0x05, 0x00]) := by
  decide +kernel

end Encoder

end Der

end Pkix
