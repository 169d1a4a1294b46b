import Pkix.Der.Primitive
import Pkix.Der.Write
import Pkix.Proofs.Der.Framing
import Pkix.Proofs.Oid

/-!
# What cursors read is what is written

Each reader of a cursor succeeds exactly where the octets of the matching writer come next.

* `Value.octets_ofOctet`, `Value.is_iff`: values whose tag is spelt by one octet.
* `Cursor.expect_eq_ok`, `Cursor.enter_eq_ok`, `Cursor.elements_eq_ok`: elements with a given tag.
* `Cursor.integer_eq_ok`, `Cursor.oid_eq_ok` and so on: the universal types.
-/

namespace Pkix.Der

/-! ## Tags of one octet -/

namespace Value

/-- The octet `tag` spells a whole tag. -/
def Short (tag : UInt8) : Prop := tag.toNat % 32 ≠ 31

instance (tag : UInt8) : Decidable (Short tag) := inferInstanceAs (Decidable (_ ≠ _))

variable {tag : UInt8} {v : Value}

theorem octets_ofOctet (h : Short tag) (content : Bytes) :
    (ofOctet tag content).octets = Write.element tag content := by
  simp [octets, header, ofOctet, Tag.octets_ofOctet h, Write.element]

theorem content_ofOctet (tag : UInt8) (content : Bytes) : (ofOctet tag content).content = content :=
  rfl

theorem is_iff : v.is tag = true ↔ v = ofOctet tag v.content := by
  obtain ⟨t, content⟩ := v
  simp [is, Tag.isOctet, ofOctet]

theorem is_ofOctet (tag : UInt8) (content : Bytes) : (ofOctet tag content).is tag = true :=
  is_iff.mpr rfl

end Value

/-! ## Values that follow one another -/

namespace Write

theorem values_eq_flatten (vs : List Value) : values vs = (vs.map Value.octets).flatten :=
  List.flatMap_def

theorem values_cons (v : Value) (vs : List Value) : values (v :: vs) = v.octets ++ values vs :=
  List.flatMap_cons

theorem length_octets_le_values {v : Value} {vs : List Value} (h : v ∈ vs) :
    v.octets.length ≤ (values vs).length := by
  induction vs with
  | nil => cases h
  | cons w vs ih =>
    rw [values_cons, List.length_append]
    obtain rfl | h := List.mem_cons.mp h
    · omega
    · have := ih h
      omega

theorem framed_of_values {vs : List Value} (h : (values vs).length < UInt32.size) :
    ∀ v ∈ vs, v.Framed := by
  intro v hv
  have := length_octets_le_values hv
  exact Value.framed_of_length (by omega)

theorem octets_ne_nil (v : Value) : v.octets ≠ [] := by
  rw [← List.length_pos_iff, Value.length_octets]
  exact v.size_pos

theorem values_eq_nil {vs : List Value} : values vs = [] ↔ vs = [] := by
  cases vs with
  | nil => simp [values]
  | cons v vs => simp [values_cons, octets_ne_nil]

/-- The values `vs` can be told from `values vs`, the octets that they make one after the other. -/
theorem values_inj {vs ws : List Value} (hvs : ∀ v ∈ vs, v.Framed) (hws : ∀ w ∈ ws, w.Framed)
    (h : values vs = values ws) : vs = ws := by
  induction vs generalizing ws with
  | nil => exact (values_eq_nil.mp h.symm).symm
  | cons v vs ih =>
    cases ws with
    | nil => exact values_eq_nil.mp h
    | cons w ws =>
      obtain ⟨hv, hvs⟩ := List.forall_mem_cons.mp hvs
      obtain ⟨hw, hws⟩ := List.forall_mem_cons.mp hws
      rw [values_cons, values_cons] at h
      obtain ⟨hhead, htail⟩ := Value.octets_append_inj hv hw h
      rw [hhead, ih hvs hws htail]

end Write

/-- The content `a` of an element and what follows it, `r`, can be told from the octets. -/
theorem Write.element_append_inj {tag : UInt8} {a b r r' : Bytes} (htag : Value.Short tag)
    (ha : a.length < UInt32.size) (hb : b.length < UInt32.size)
    (h : element tag a ++ r = element tag b ++ r') : a = b ∧ r = r' := by
  rw [← Value.octets_ofOctet htag, ← Value.octets_ofOctet htag] at h
  obtain ⟨hvalue, hrest⟩ := Value.octets_append_inj (v := Value.ofOctet tag a)
    (w := Value.ofOctet tag b) ha hb h
  exact ⟨congrArg Value.content hvalue, hrest⟩

theorem Write.head?_element_append (tag : UInt8) (a r : Bytes) :
    (element tag a ++ r).head? = some tag := rfl

theorem Write.length_le_element (tag : UInt8) (a : Bytes) : a.length ≤ (element tag a).length := by
  simp only [element, List.length_append, List.length_cons]
  omega

theorem Write.length_lt_of_element_append {tag : UInt8} {a r : Bytes} {n : Nat}
    (h : (element tag a ++ r).length < n) : a.length < n ∧ r.length < n := by
  simp only [element, List.length_append, List.length_cons] at h
  omega

theorem Write.element_append_inj_of_length {tag : UInt8} {a b r r' : Bytes}
    (htag : Value.Short tag) (hlen : (element tag a ++ r).length < UInt32.size)
    (h : element tag a ++ r = element tag b ++ r') : a = b ∧ r = r' :=
  element_append_inj htag (length_lt_of_element_append hlen).1
    (length_lt_of_element_append (h ▸ hlen)).1 h

theorem Write.element_inj {tag : UInt8} {a b : Bytes} (htag : Value.Short tag)
    (hlen : (element tag a).length < UInt32.size) (h : element tag a = element tag b) : a = b := by
  rw [← List.append_nil (element tag a)] at h hlen
  rw [← List.append_nil (element tag b)] at h
  exact (element_append_inj_of_length htag hlen h).1

/-! ## Elements with a given tag -/

namespace Cursor

variable {c c' : Cursor} {tag : UInt8}

theorem rest_ofBuffer (b : Bytes) (limits : Limits) : (ofBuffer b limits).rest = b := rfl

theorem limits_ofBuffer (b : Bytes) (limits : Limits) : (ofBuffer b limits).limits = limits := rfl

theorem peek_of_step {b : Bytes} (h : c.Step b c') (hb : b ≠ []) : c.peek = b.head? := by
  rw [peek, h.rest, List.head?_append_of_ne_nil _ hb]

theorem expect_eq_ok {v : Value} (h : Value.Short tag) :
    c.expect tag = .ok (v, c') ↔
      v = Value.ofOctet tag v.content ∧ c.Step (Write.element tag v.content) c' ∧ v.Framed := by
  simp only [expect, bind_eq_ok, pure_eq_ok, ite_error_eq_ok, Prod.exists, value_eq_ok,
    Prod.mk.injEq, Value.is_iff]
  constructor
  · rintro ⟨w, c₁, ⟨hstep, hframed⟩, hw, rfl, rfl⟩
    refine ⟨hw, ?_, hframed⟩
    rwa [hw, Value.octets_ofOctet h] at hstep
  · rintro ⟨hv, hstep, hframed⟩
    refine ⟨v, c', ⟨?_, hframed⟩, hv, rfl, rfl⟩
    rwa [hv, Value.octets_ofOctet h]

theorem enter_eq_ok {inner : Cursor} (h : Value.Short tag) :
    c.enter tag = .ok (inner, c') ↔
      ∃ content, inner = ofBuffer content c.limits ∧ c.Step (Write.element tag content) c' ∧
        content.length < UInt32.size := by
  simp only [enter, bind_eq_ok, pure_eq_ok, Prod.exists, expect_eq_ok h, Prod.mk.injEq]
  constructor
  · rintro ⟨v, c₁, ⟨-, hstep, hframed⟩, rfl, rfl⟩
    exact ⟨v.content, rfl, hstep, hframed⟩
  · rintro ⟨content, rfl, hstep, hlen⟩
    exact ⟨Value.ofOctet tag content, c', ⟨rfl, hstep, hlen⟩, rfl, rfl⟩

theorem optional_eq_none : c.optional tag = .ok (none, c') ↔ c.peek ≠ some tag ∧ c' = c := by
  unfold optional
  split
  · rename_i h
    simp [bind_eq_ok, pure_eq_ok, h, -bind_pure_comp]
  · rename_i h
    simp [h, eq_comm]

theorem optional_eq_some {v : Value} (h : Value.Short tag) :
    c.optional tag = .ok (some v, c') ↔
      v = Value.ofOctet tag v.content ∧ c.Step (Write.element tag v.content) c' ∧ v.Framed := by
  rw [← expect_eq_ok h]
  unfold optional
  split
  · simp [bind_eq_ok, pure_eq_ok, -bind_pure_comp]
  · rename_i hpeek
    constructor
    · intro h
      cases h
    · intro hv
      obtain ⟨-, hstep, -⟩ := (expect_eq_ok h).mp hv
      exact absurd (peek_of_step hstep (by simp [Write.element])) hpeek

/-! ## Elements up to the end -/

theorem allFrom_eq_ok {done vs : List Value} {room : Nat} :
    c.allFrom done room = .ok vs ↔
      ∃ ws, vs = done.reverse ++ ws ∧ c.rest = Write.values ws ∧ (∀ w ∈ ws, w.Framed) ∧
        ws.length ≤ room := by
  induction room generalizing c done with
  | zero =>
    simp only [allFrom, ite_error_eq_ok, isEmpty, List.isEmpty_iff, Except.ok.injEq,
      Nat.le_zero, List.length_eq_zero_iff]
    constructor
    · rintro ⟨hrest, rfl⟩
      exact ⟨[], by simp, hrest, by simp, rfl⟩
    · rintro ⟨ws, rfl, hrest, -, rfl⟩
      exact ⟨hrest, by simp⟩
  | succ room ih =>
    rw [allFrom]
    split
    · rename_i hempty
      rw [isEmpty, List.isEmpty_iff] at hempty
      simp only [Except.ok.injEq, hempty]
      constructor
      · rintro rfl
        exact ⟨[], by simp, rfl, by simp, by simp⟩
      · rintro ⟨ws, rfl, hws, -, -⟩
        rw [Write.values_eq_nil.mp hws.symm, List.append_nil]
    · rename_i hempty
      rw [isEmpty, List.isEmpty_iff] at hempty
      constructor
      · intro h
        split at h
        · cases h
        · rename_i v next hv
          obtain ⟨hstep, hframed⟩ := value_eq_ok.mp hv
          obtain ⟨ws, rfl, hrest, hws, hlen⟩ := ih.mp h
          refine ⟨v :: ws, by simp, ?_, List.forall_mem_cons.mpr ⟨hframed, hws⟩,
            by simpa using hlen⟩
          rw [hstep.rest, hrest, Write.values_cons]
      · rintro ⟨ws, rfl, hrest, hws, hlen⟩
        cases ws with
        | nil => exact absurd hrest hempty
        | cons w ws =>
          obtain ⟨hw, hws⟩ := List.forall_mem_cons.mp hws
          have hstep : c.Step w.octets (c.advance w.octets.length) := .of_rest hrest
          rw [value_eq_ok.mpr ⟨hstep, hw⟩]
          refine ih.mpr ⟨ws, by simp, ?_, hws, by simpa using hlen⟩
          have := hstep.rest
          rw [hrest, Write.values_cons] at this
          exact (List.append_cancel_left this).symm

/-- `c.all` reads all elements up to the end, `vs`, exactly where they are what is left. -/
theorem all_eq_ok {vs : List Value} :
    c.all = .ok vs ↔
      c.rest = Write.values vs ∧ (∀ v ∈ vs, v.Framed) ∧ vs.length ≤ c.limits.maxElements := by
  simp [all, allFrom_eq_ok]

theorem elements_eq_ok {vs : List Value} (h : Value.Short tag) :
    c.elements tag = .ok (vs, c') ↔
      c.Step (Write.element tag (Write.values vs)) c' ∧ (Write.values vs).length < UInt32.size ∧
        vs.length ≤ c.limits.maxElements := by
  simp only [elements, bind_eq_ok, pure_eq_ok, Prod.exists, enter_eq_ok h, all_eq_ok,
    Prod.mk.injEq]
  constructor
  · rintro ⟨_, c₁, ⟨content, rfl, hstep, hlen⟩, ws, ⟨rfl, -, hcount⟩, rfl, rfl⟩
    exact ⟨hstep, hlen, hcount⟩
  · rintro ⟨hstep, hlen, hcount⟩
    exact ⟨_, c', ⟨_, rfl, hstep, hlen⟩, vs, ⟨rfl, Write.framed_of_values hlen, hcount⟩, rfl, rfl⟩

/-- Where the elements `vs` are known to come next, reading them only depends on their number. -/
theorem elements_of_step {vs : List Value} {r : List Value × Cursor} (htag : Value.Short tag)
    (hstep : c.Step (Write.element tag (Write.values vs)) c')
    (hlen : (Write.values vs).length < UInt32.size) :
    c.elements tag = .ok r ↔ vs.length ≤ c.limits.maxElements ∧ (vs, c') = r := by
  obtain ⟨ws, c₁⟩ := r
  rw [elements_eq_ok htag]
  constructor
  · rintro ⟨hstep₁, hlen₁, hcount⟩
    obtain ⟨heq, -⟩ := Write.element_append_inj htag hlen₁ hlen
      (hstep₁.rest.symm.trans hstep.rest)
    obtain rfl := Write.values_inj (Write.framed_of_values hlen₁) (Write.framed_of_values hlen) heq
    rw [hstep.2, hstep₁.2]
    exact ⟨hcount, rfl⟩
  · rintro ⟨hcount, heq⟩
    cases heq
    exact ⟨hstep, hlen, hcount⟩

theorem setOf_eq_ok {vs : List Value} :
    c.setOf = .ok (vs, c') ↔
      c.Step (Write.element Tag.set (Write.values vs)) c' ∧
        (Write.values vs).length < UInt32.size ∧ vs.length ≤ c.limits.maxElements :=
  elements_eq_ok (by decide)

end Cursor

theorem Value.children_eq_ok {v : Value} {limits : Limits} {vs : List Value} :
    v.children limits = .ok vs ↔
      v.tag.constructed = true ∧ v.content = Write.values vs ∧ (∀ w ∈ vs, w.Framed) ∧
        vs.length ≤ limits.maxElements := by
  simp only [children, ite_error_eq_ok, cursor, Cursor.all_eq_ok, Cursor.rest_ofBuffer,
    Cursor.limits_ofBuffer]

/-! ## The universal types -/

namespace Value

theorem signed_eq_ok {v : Value} {n : Int} : v.signed = .ok n ↔ v.content = BigEndian.ofInt n := by
  simp only [signed, error_ite_eq_ok, ite_error_eq_ok, Except.ok.injEq]
  constructor
  · rintro ⟨-, hmin, rfl⟩
    exact (BigEndian.ofInt_toInt hmin).symm
  · intro h
    have hmin := BigEndian.isMinimal_ofInt n
    refine ⟨?_, h ▸ hmin, h ▸ BigEndian.toInt_ofInt n⟩
    intro hnil
    rw [← h, hnil] at hmin
    cases hmin

theorem require_eq_ok {v : Value} {tag : UInt8} {name : String} {u : Unit} :
    v.require tag name = .ok u ↔ v = ofOctet tag v.content := by
  simp [require, is_iff]

theorem integer_eq_ok {v : Value} {n : Int} :
    v.integer = .ok n ↔ v = ofOctet Tag.integer (BigEndian.ofInt n) := by
  simp only [integer, bind_eq_ok, require_eq_ok, signed_eq_ok]
  constructor
  · rintro ⟨-, hv, hn⟩
    rwa [hn] at hv
  · rintro rfl
    exact ⟨(), rfl, rfl⟩

theorem word_eq_ok {v : Value} {n : UInt32} :
    v.word = .ok n ↔ v = ofOctet Tag.integer (BigEndian.ofInt n.toNat) := by
  have hn := n.toNat_lt
  simp only [word, bind_eq_ok, ite_error_eq_ok, pure_eq_ok, integer_eq_ok]
  constructor
  · rintro ⟨m, rfl, ⟨h0, hlt⟩, rfl⟩
    rw [UInt32.toNat_ofNat_of_lt' (by omega), Int.toNat_of_nonneg h0]
  · rintro rfl
    refine ⟨_, rfl, ⟨by omega, by rw [UInt32.size]; omega⟩, ?_⟩
    rw [Int.toNat_natCast, UInt32.ofNat_toNat]

theorem enumerated_eq_ok {v : Value} {n : Int64} :
    v.enumerated = .ok n ↔ v = ofOctet Tag.enumerated (BigEndian.ofInt n.toInt) := by
  simp only [enumerated, bind_eq_ok, ite_error_eq_ok, pure_eq_ok, require_eq_ok, signed_eq_ok]
  constructor
  · rintro ⟨-, hv, m, hm, ⟨hmin, hmax⟩, rfl⟩
    rw [Int64.toInt_ofInt_of_le hmin (Int.lt_of_le_of_lt hmax (by decide)), ← hm]
    exact hv
  · rintro rfl
    exact ⟨(), rfl, n.toInt, rfl, ⟨n.minValue_le_toInt, n.toInt_le⟩, Int64.ofInt_toInt n⟩

theorem null_eq_ok {v : Value} {u : Unit} : v.null = .ok u ↔ v = ofOctet Tag.null [] := by
  simp only [null, bind_eq_ok, require_eq_ok, ite_error_eq_ok]
  constructor
  · rintro ⟨-, hv, hnil, -⟩
    rwa [hnil] at hv
  · rintro rfl
    exact ⟨(), rfl, rfl, rfl⟩

theorem boolean_eq_ok {v : Value} {b : Bool} :
    v.boolean = .ok b ↔ v = ofOctet Tag.boolean [if b then 0xFF else 0x00] := by
  simp only [boolean, bind_eq_ok, require_eq_ok]
  constructor
  · rintro ⟨-, hv, hb⟩
    rw [hv]
    split at hb
    · rename_i hcontent
      cases hb
      rw [hcontent]
      rfl
    · rename_i hcontent
      cases hb
      rw [hcontent]
      rfl
    · cases hb
  · rintro rfl
    refine ⟨(), rfl, ?_⟩
    cases b <;> rfl

theorem oid_eq_ok {v : Value} {id : Oid} : v.oid = .ok id ↔ v = ofOctet Tag.oid id.content := by
  simp only [oid, bind_eq_ok, require_eq_ok, Oid.ofContent_eq_ok]
  constructor
  · rintro ⟨-, hv, hid⟩
    rwa [hid] at hv
  · rintro rfl
    exact ⟨(), rfl, rfl⟩

theorem octetString_eq_ok {v : Value} {b : Bytes} :
    v.octetString = .ok b ↔ v = ofOctet Tag.octetString b := by
  simp only [octetString, bind_eq_ok, pure_eq_ok, require_eq_ok]
  constructor
  · rintro ⟨-, hv, rfl⟩
    exact hv
  · rintro rfl
    exact ⟨(), rfl, rfl⟩

theorem wholeBits_eq_ok {v : Value} {b : Bytes} :
    v.wholeBits = .ok b ↔ v = ofOctet Tag.bitString (0 :: b) := by
  simp only [wholeBits, bind_eq_ok, require_eq_ok]
  constructor
  · rintro ⟨-, hv, hb⟩
    split at hb
    · rename_i hcontent
      cases hb
      rwa [hcontent] at hv
    · cases hb
  · rintro rfl
    exact ⟨(), rfl, rfl⟩

theorem generalizedTime_eq_ok {v : Value} {t : Time} :
    v.generalizedTime = .ok t ↔ v = ofOctet Tag.generalizedTime v.content ∧
      Time.ofContent .generalized v.content = .ok t := by
  simp only [generalizedTime, bind_eq_ok, require_eq_ok, exists_const]

end Value

/-- The `content` of an element within the limit is short enough to be read. -/
theorem Write.lt_size_of_element_le {tag : UInt8} {content : Bytes}
    (h : (Write.element tag content).length ≤ Limits.default.maxInput) :
    content.length < UInt32.size := by
  have hmax : Limits.default.maxInput < UInt32.size := by decide
  simp only [Write.element, List.length_append, List.length_cons] at h
  omega

/-- An element that `Write.element` gives is read as the value that it is, within the limit. -/
theorem decode_element {tag : UInt8} {content : Bytes} (htag : Value.Short tag)
    (hlen : (Write.element tag content).length ≤ Limits.default.maxInput) :
    decode (Write.element tag content) = .ok (Value.ofOctet tag content) :=
  decode_eq_ok.mpr ⟨hlen, Value.octets_ofOctet htag content⟩

namespace Cursor

variable {c c' : Cursor}

/-- The next element is read as a type whose values have one `content` each. -/
theorem expect_content_eq_ok {tag : UInt8} {content : Bytes} (h : Value.Short tag) :
    (∃ v, c.expect tag = .ok (v, c') ∧ v.content = content) ↔
      c.Step (Write.element tag content) c' ∧ content.length < UInt32.size := by
  simp only [expect_eq_ok h]
  constructor
  · rintro ⟨v, ⟨-, hstep, hframed⟩, rfl⟩
    exact ⟨hstep, hframed⟩
  · rintro ⟨hstep, hlen⟩
    exact ⟨Value.ofOctet tag content, ⟨rfl, hstep, hlen⟩, rfl⟩

theorem integer_eq_ok {n : Int} :
    c.integer = .ok (n, c') ↔
      c.Step (Write.integer n) c' ∧ (BigEndian.ofInt n).length < UInt32.size := by
  rw [Write.integer, ← expect_content_eq_ok (by decide)]
  simp only [integer, bind_eq_ok, pure_eq_ok, Prod.exists, Prod.mk.injEq, Value.integer_eq_ok]
  constructor
  · rintro ⟨v, c₁, hv, n, hn, rfl, rfl⟩
    exact ⟨v, hv, congrArg Value.content hn⟩
  · rintro ⟨v, hv, hn⟩
    have htag := ((expect_eq_ok (by decide)).mp hv).1
    exact ⟨v, c', hv, n, hn ▸ htag, rfl, rfl⟩

theorem word_eq_ok {n : UInt32} : c.word = .ok (n, c') ↔ c.Step (Write.word n) c' := by
  have hlen := BigEndian.length_ofInt_word n
  rw [Write.word, Write.integer, ← and_iff_left (a := c.Step _ c') hlen,
    ← expect_content_eq_ok (by decide)]
  simp only [word, bind_eq_ok, pure_eq_ok, Prod.exists, Prod.mk.injEq, Value.word_eq_ok]
  constructor
  · rintro ⟨v, c₁, hv, n, hn, rfl, rfl⟩
    exact ⟨v, hv, congrArg Value.content hn⟩
  · rintro ⟨v, hv, hn⟩
    have htag := ((expect_eq_ok (by decide)).mp hv).1
    exact ⟨v, c', hv, n, hn ▸ htag, rfl, rfl⟩

theorem oid_eq_ok {id : Oid} :
    c.oid = .ok (id, c') ↔ c.Step (Write.oid id) c' ∧ id.content.length < UInt32.size := by
  rw [Write.oid, ← expect_content_eq_ok (by decide)]
  simp only [oid, bind_eq_ok, pure_eq_ok, Prod.exists, Prod.mk.injEq, Oid.ofContent_eq_ok]
  constructor
  · rintro ⟨v, c₁, hv, _, hid, rfl, rfl⟩
    exact ⟨v, hv, hid⟩
  · rintro ⟨v, hv, hid⟩
    exact ⟨v, c', hv, id, hid, rfl, rfl⟩

theorem octetString_eq_ok {b : Bytes} :
    c.octetString = .ok (b, c') ↔ c.Step (Write.octetString b) c' ∧ b.length < UInt32.size := by
  rw [Write.octetString, ← expect_content_eq_ok (by decide)]
  simp only [octetString, bind_eq_ok, pure_eq_ok, Prod.exists, Prod.mk.injEq]
  constructor
  · rintro ⟨v, c₁, hv, rfl, rfl⟩
    exact ⟨v, hv, rfl⟩
  · rintro ⟨v, hv, rfl⟩
    exact ⟨v, c', hv, rfl, rfl⟩

end Cursor

end Pkix.Der
