import Pkix.Proofs.Der.Elements
import Pkix.Proofs.Der.SetOrder

/-!
# Sets in any order

The order of a SET OF does not tell a primitive value from a constructed one with the same class,
number and content. Of such a pair the one that is listed first is written first; in all else the
order in which values are listed leaves no trace.

* `Value.primitive`: a value as if it were primitive. `Value.cmp_eq_eq`: this is what the order
  sees of a value.
* `SetOrder.TellsApart`: values that the order tells apart. `SetOrder.sort_eq_of_perm`: these are
  sorted in the same way from any order.
* `SetOrder.setOf_perm_iff_tellsApart`: and they are the only ones.
* `SetOrder.map_primitive_sortBy`: up to their form, all values are.
* `decodeElements_eq_ok`: the elements of an element are read exactly where they were written.
* `set_roundtrip`: a set that is read again is sorted and has lost nothing.
-/

namespace Pkix

instance : Std.LawfulEqCmp Bytes.cmp := by
  rw [Bytes.cmp_eq_compareLex]
  infer_instance

namespace Der

/-! ## What the order sees of a value -/

theorem TagClass.index_inj {c d : TagClass} (h : c.index = d.index) : c = d := by
  rw [← c.ofIndex_index, h, d.ofIndex_index]

/-- The tag `s` at the start of octets can be told from what follows. -/
theorem Tag.octets_append_inj {s t : Tag} {a b : Bytes} (h : s.octets ++ a = t.octets ++ b) :
    s = t ∧ a = b := by
  have hs : Tag.ofOctets (s.octets ++ a) = .ok (s, a) := Tag.ofOctets_eq_ok.mpr rfl
  rw [h, Tag.ofOctets_eq_ok.mpr rfl] at hs
  cases hs
  exact ⟨rfl, rfl⟩

/-- A greater length `n` has no fewer octets. -/
theorem Length.length_octets_le {m n : Nat} (h : m ≤ n) :
    (Length.octets m).length ≤ (Length.octets n).length := by
  have hdigits : (BigEndian.ofNat m).length ≤ (BigEndian.ofNat n).length :=
    BigEndian.length_ofNat_le_iff.mpr
      (Nat.lt_of_le_of_lt h (BigEndian.length_ofNat_le_iff.mp (Nat.le_refl _)))
  unfold Length.octets
  split
  · split <;> simp
  · rw [if_neg (by omega)]
    simpa using hdigits

/-- A content `a` can be told from its length and itself, however long it is. -/
theorem Length.octets_append_inj {a b : Bytes}
    (h : Length.octets a.length ++ a = Length.octets b.length ++ b) : a = b := by
  have hlen : a.length = b.length := by
    have htotal := congrArg List.length h
    rw [List.length_append, List.length_append] at htotal
    obtain hle | hle := Nat.le_total a.length b.length
    · have := Length.length_octets_le hle
      omega
    · have := Length.length_octets_le hle
      omega
  rw [hlen] at h
  exact List.append_cancel_left h

/-- The content `a` of an element can be told from its encoding. -/
theorem Write.content_of_element {tag : UInt8} {a b : Bytes} (h : element tag a = element tag b) :
    a = b :=
  Length.octets_append_inj (List.cons_inj_right tag |>.mp h)

theorem Write.length_element (tag : UInt8) (content : Bytes) : (element tag content).length =
    1 + (Length.octets content.length).length + content.length := by
  rw [element, List.length_cons, List.length_append]
  omega

/-- A `content` that is not too long has four length octets at most. -/
theorem Write.length_element_le_add {tag : UInt8} {content : Bytes}
    (h : content.length < 16777216) : (element tag content).length ≤ content.length + 5 := by
  have hlength := Length.length_octets_le (Nat.le_of_lt_succ h)
  have hfour : (Length.octets 16777215).length = 4 := by decide +kernel
  rw [length_element]
  omega

/-- A set is as long as an element with the same encodings `es` in any order. -/
theorem Write.length_setOf (tag : UInt8) (es : List Bytes) :
    (setOf tag es).length = (element tag es.flatten).length := by
  have hperm : (SetOrder.sort es).Perm es := List.mergeSort_perm _ _
  rw [setOf, length_element, length_element, hperm.flatten.length_eq]

namespace Value

/-- The content of `v` under a tag for primitive content. -/
def primitive (v : Value) : Value := { v with tag := { v.tag with constructed := false } }

theorem eq_of_tag {v w : Value} (h : v.primitive = w.primitive) (htag : v.tag = w.tag) : v = w := by
  obtain ⟨tag, content⟩ := v
  obtain ⟨tag', content'⟩ := w
  cases htag
  have : content = content' := congrArg Value.content h
  rw [this]

/-- A value `v` can be told from `v.octets`, however long it is. -/
theorem octets_inj {v w : Value} (h : v.octets = w.octets) : v = w := by
  rw [octets_eq_untagged, octets_eq_untagged] at h
  obtain ⟨htag, huntagged⟩ := Tag.octets_append_inj h
  obtain ⟨tag, content⟩ := v
  obtain ⟨tag', content'⟩ := w
  cases htag
  have : content = content' := Length.octets_append_inj huntagged
  rw [this]

/-- **Ties.** `v` and `w` compare equal exactly where they differ at most in form (`primitive`). -/
theorem cmp_eq_eq {v w : Value} : v.cmp w = .eq ↔ v.primitive = w.primitive := by
  obtain ⟨⟨c, p, n⟩, content⟩ := v
  obtain ⟨⟨d, q, m⟩, content'⟩ := w
  simp only [cmp, compareLex_eq_eq, compareOn, Std.LawfulEqCmp.compare_eq_iff_eq, primitive,
    Value.mk.injEq, Tag.mk.injEq, true_and]
  constructor
  · rintro ⟨hcls, hnumber, huntagged⟩
    exact ⟨⟨TagClass.index_inj hcls, hnumber⟩, Length.octets_append_inj huntagged⟩
  · rintro ⟨⟨rfl, rfl⟩, rfl⟩
    exact ⟨rfl, rfl, rfl⟩

theorem cmp_primitive (v w : Value) : v.primitive.cmp w.primitive = v.cmp w := rfl

end Value

/-! ## The order of the list -/

/-- A list `xs` of elements that the order tells apart is sorted in the same way from any order,
`ys`. -/
theorem mergeSort_eq_of_perm {α : Type} {le : α → α → Bool}
    (htrans : ∀ x y z, le x y → le y z → le x z) (htotal : ∀ x y, le x y || le y x)
    {xs ys : List α} (h : xs.Perm ys)
    (hanti : ∀ x ∈ xs, ∀ y ∈ xs, le x y = true → le y x = true → x = y) :
    xs.mergeSort le = ys.mergeSort le := by
  have hx := List.mergeSort_perm xs le
  have hy := List.mergeSort_perm ys le
  refine List.Perm.eq_of_pairwise ?_ (List.pairwise_mergeSort htrans htotal xs)
    (List.pairwise_mergeSort htrans htotal ys) (hx.trans (h.trans hy.symm))
  intro x y hxs hys
  exact hanti x (hx.mem_iff.mp hxs) y (h.mem_iff.mpr (hy.mem_iff.mp hys))

namespace Write

theorem values_append (vs ws : List Value) : values (vs ++ ws) = values vs ++ values ws :=
  List.flatMap_append

/-- The tag of `v`, the first of some values, can be told from their octets. -/
theorem tag_of_values {v w : Value} {vs ws : List Value}
    (h : values (v :: vs) = values (w :: ws)) : v.tag = w.tag := by
  rw [values_cons, values_cons, Value.octets_eq_untagged, Value.octets_eq_untagged w,
    List.append_assoc, List.append_assoc] at h
  exact (Tag.octets_append_inj h).1

/-- A set of values `vs` holds these in canonical order. -/
theorem setOf_octets (tag : UInt8) (vs : List Value) :
    setOf tag (vs.map Value.octets) = element tag (values (SetOrder.sortBy Value.octets vs)) :=
  setOf_eq tag rfl

end Write

namespace SetOrder

/-- No two of the values `vs` differ in form alone, so the order tells them apart. -/
def TellsApart (vs : List Value) : Prop :=
  ∀ v ∈ vs, ∀ w ∈ vs, v.primitive = w.primitive → v = w

instance (vs : List Value) : Decidable (TellsApart vs) :=
  inferInstanceAs (Decidable (∀ v ∈ vs, ∀ w ∈ vs, _ → _))

variable {vs ws : List Value}

/-- Values `vs` that the order tells apart are sorted in the same way from any order, `ws`. -/
theorem sortBy_eq_of_perm (h : vs.Perm ws) (hvs : TellsApart vs) :
    sortBy Value.octets vs = sortBy Value.octets ws := by
  rw [sortBy_octets, sortBy_octets]
  refine mergeSort_eq_of_perm Value.cmp_trans Value.cmp_total h fun v hv w hw hvw hwv => ?_
  rw [Value.bne_gt_eq_isLE] at hvw hwv
  exact hvs v hv w hw (Value.cmp_eq_eq.mp (Std.OrientedCmp.isLE_antisymm hvw hwv))

theorem sort_eq_of_perm (h : vs.Perm ws) (hvs : TellsApart vs) :
    sort (vs.map Value.octets) = sort (ws.map Value.octets) := by
  rw [← map_sortBy, ← map_sortBy, sortBy_eq_of_perm h hvs]

/-- Values `vs` with the same `tag` are told apart. -/
theorem tellsApart_of_tag {tag : Tag} (h : ∀ v ∈ vs, v.tag = tag) : TellsApart vs :=
  fun v hv w hw heq => Value.eq_of_tag heq ((h v hv).trans (h w hw).symm)

/-- Elements `es` with the same `tag` are sorted in the same way from any order, `fs`. -/
theorem sort_elements_eq_of_perm {tag : UInt8} {es fs : List Bytes} (htag : Value.Short tag)
    (h : es.Perm fs) (hes : ∀ e ∈ es, ∃ content, e = Write.element tag content) :
    sort es = sort fs := by
  have hvalue : ∀ e ∈ es, ∃ v : Value, v.tag = Tag.ofOctet tag ∧ e = v.octets := by
    intro e he
    obtain ⟨content, rfl⟩ := hes e he
    exact ⟨Value.ofOctet tag content, rfl, (Value.octets_ofOctet htag content).symm⟩
  obtain ⟨ws, rfl, -⟩ := exists_values fun e he => hvalue e (h.mem_iff.mpr he)
  obtain ⟨vs, rfl, hvs⟩ := exists_values hvalue
  exact sort_eq_of_perm ((List.map_perm_map_iff fun v w => Value.octets_inj).mp h)
    (tellsApart_of_tag hvs)

/-- Primitive values, such as `vs.map Value.primitive`, are told apart. -/
theorem tellsApart_primitive (vs : List Value) : TellsApart (vs.map Value.primitive) := by
  intro v hv w hw h
  obtain ⟨v, -, rfl⟩ := List.mem_map.mp hv
  obtain ⟨w, -, rfl⟩ := List.mem_map.mp hw
  exact h

/-- Up to form (`Value.primitive`), all values are sorted in the same way from any order. -/
theorem map_primitive_sortBy (h : vs.Perm ws) :
    (sortBy Value.octets vs).map Value.primitive =
      (sortBy Value.octets ws).map Value.primitive := by
  have hmap (us : List Value) : (sortBy Value.octets us).map Value.primitive =
      sortBy Value.octets (us.map Value.primitive) := by
    rw [sortBy_octets, sortBy_octets]
    exact List.map_mergeSort fun _ _ _ _ => rfl
  rw [hmap, hmap, sortBy_eq_of_perm (h.map _) (tellsApart_primitive vs)]

/-- Of two values `v` and `w` that differ in form alone, the one that is listed first comes
first. -/
theorem exists_sortBy_twins {v w : Value} (h : v.primitive = w.primitive) (us : List Value) :
    ∃ front back, sortBy Value.octets (v :: w :: us) = front ++ v :: w :: back ∧
      sortBy Value.octets (w :: v :: us) = front ++ w :: v :: back := by
  have hcons (x : Value) (xs : List Value) :=
    mergeSort_cons_eq_filter Value.cmp_trans Value.cmp_total x xs
  have hsame (x : Value) : v.cmp x = w.cmp x := by
    rw [← Value.cmp_primitive, h, Value.cmp_primitive]
  have hself : w.cmp w = .eq := Value.cmp_eq_eq.mpr rfl
  have htie : w.cmp v = .eq := Value.cmp_eq_eq.mpr h.symm
  simp only [sortBy_octets]
  refine ⟨(us.mergeSort fun v w => v.cmp w != .gt).filter (fun x => !(w.cmp x != .gt)),
    (us.mergeSort fun v w => v.cmp w != .gt).filter (fun x => w.cmp x != .gt), ?_, ?_⟩
  · rw [hcons, hcons]
    simp [hsame, hself]
  · rw [hcons, hcons]
    simp [hsame, htie]

/-- Values `vs` that are written in the same way from any order are told apart. -/
theorem tellsApart_of_perm {tag : UInt8} {vs : List Value}
    (h : ∀ ws, vs.Perm ws →
      Write.setOf tag (ws.map Value.octets) = Write.setOf tag (vs.map Value.octets)) :
    TellsApart vs := by
  intro v hv w hw htwins
  by_contra hne
  obtain ⟨us, hus⟩ : ∃ us, vs.Perm (v :: w :: us) := by
    refine ⟨(vs.erase v).erase w, (List.perm_cons_erase hv).trans (.cons v ?_)⟩
    exact List.perm_cons_erase ((List.mem_erase_of_ne (Ne.symm hne)).mpr hw)
  obtain ⟨front, back, hvw, hwv⟩ := exists_sortBy_twins htwins us
  -- the two lists of octets agree up to the tag of the first of the two
  have hset := (h _ hus).trans (h _ (hus.trans (.swap w v us))).symm
  rw [Write.setOf_octets, Write.setOf_octets, hvw, hwv] at hset
  have hvalues := Write.content_of_element hset
  rw [Write.values_append, Write.values_append, List.append_cancel_left_eq] at hvalues
  exact hne (Value.eq_of_tag htwins (Write.tag_of_values hvalues))

/-- The order of `vs` leaves no trace in `setOf` exactly where they are told apart. -/
theorem setOf_perm_iff_tellsApart {tag : UInt8} {vs : List Value} :
    (∀ ws, vs.Perm ws →
      Write.setOf tag (ws.map Value.octets) = Write.setOf tag (vs.map Value.octets)) ↔
        TellsApart vs := by
  refine ⟨tellsApart_of_perm, fun hvs ws hws => ?_⟩
  rw [Write.setOf, Write.setOf, sort_eq_of_perm hws hvs]

/-- Values in canonical order, `sortBy Value.octets vs`, have their encodings in canonical order. -/
theorem sorted_sortBy (vs : List Value) : Sorted ((sortBy Value.octets vs).map Value.octets) := by
  rw [Sorted, List.pairwise_map, sortBy_octets]
  refine (List.pairwise_mergeSort Value.cmp_trans Value.cmp_total vs).imp fun h => ?_
  simpa [Value.cmp_octets] using h

end SetOrder

/-! ## Reading a set again -/

/-- The elements `vs` of an element under `tag` are read exactly where they were written. -/
theorem decodeElements_eq_ok {b : Bytes} {tag : UInt8} {vs : List Value} (htag : Value.Short tag) :
    decodeElements b tag = .ok vs ↔
      b.length ≤ Limits.default.maxInput ∧ b = Write.element tag (Write.values vs) ∧
        vs.length ≤ Limits.default.maxElements := by
  simp only [decodeElements, bind_eq_ok, pure_eq_ok, Prod.exists, Cursor.start_eq_ok,
    Cursor.elements_eq_ok htag, Cursor.finish_eq_ok]
  constructor
  · rintro ⟨_, ⟨hlen, rfl⟩, ws, c, ⟨hstep, -, hcount⟩, -, hrest, rfl⟩
    have hb := hstep.rest
    rw [hrest, List.append_nil] at hb
    exact ⟨hlen, hb, hcount⟩
  · rintro ⟨hlen, rfl, hcount⟩
    have hmax : Limits.default.maxInput < UInt32.size := by decide
    have hvalues : (Write.values vs).length < UInt32.size := by
      simp only [Write.element, List.length_cons, List.length_append] at hlen
      omega
    refine ⟨_, ⟨hlen, rfl⟩, vs, _, ⟨.of_rest (r := []) ?_, hvalues, hcount⟩, (), ?_, rfl⟩
    · simp [Cursor.ofBuffer]
    · simp [Cursor.ofBuffer, Cursor.advance]

/-- **A set that is read again is sorted and has lost nothing.** The values `vs` of a set under an
octet `tag` that spells a whole tag are read in canonical order, as `ws`, each as often as it was
written, and written again they give the same octets. -/
theorem set_roundtrip {tag : UInt8} {vs : List Value} (htag : Value.Short tag)
    (hcount : vs.length ≤ Limits.default.maxElements)
    (hlen : (Write.setOf tag (vs.map Value.octets)).length ≤ Limits.default.maxInput) :
    ∃ ws, decodeElements (Write.setOf tag (vs.map Value.octets)) tag = .ok ws ∧ ws.Perm vs ∧
      SetOrder.Sorted (ws.map Value.octets) ∧
      Write.setOf tag (ws.map Value.octets) = Write.setOf tag (vs.map Value.octets) := by
  refine ⟨SetOrder.sortBy Value.octets vs, ?_, SetOrder.sortBy_perm _ _,
    SetOrder.sorted_sortBy vs, ?_⟩
  · rw [decodeElements_eq_ok htag, SetOrder.length_sortBy]
    exact ⟨hlen, Write.setOf_octets tag vs, hcount⟩
  · rw [Write.setOf_octets, Write.setOf_octets, SetOrder.sortBy_sortBy]

/-- A value with the number 128, and one that comes before it in a set. -/
def longNumber : List Value := [⟨⟨.context, true, 128⟩, []⟩, ⟨⟨.context, false, 0⟩, [5]⟩]

theorem setOf_longNumber : Write.setOf 0xa0 (longNumber.map Value.octets) =
    [0xa0, 0x07, 0x80, 0x01, 0x05, 0xbf, 0x81, 0x00, 0x00] := by
  rw [Write.setOf, longNumber, List.map_cons, List.map_singleton,
    SetOrder.sort_pair (by decide +kernel)]
  decide +kernel

/-- `set_roundtrip` at `longNumber`: the two values are read in the other order. -/
theorem exists_set_roundtrip_longNumber :
    ∃ ws, decodeElements [0xa0, 0x07, 0x80, 0x01, 0x05, 0xbf, 0x81, 0x00, 0x00] 0xa0 = .ok ws ∧
      ws.Perm longNumber ∧ SetOrder.Sorted (ws.map Value.octets) ∧
      Write.setOf 0xa0 (ws.map Value.octets) =
        [0xa0, 0x07, 0x80, 0x01, 0x05, 0xbf, 0x81, 0x00, 0x00] := by
  rw [← setOf_longNumber]
  exact set_roundtrip (by decide) (by decide) (by rw [setOf_longNumber]; decide)

end Der

end Pkix
