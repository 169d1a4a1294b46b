import Pkix.Der.Cursor
import Pkix.Proofs.Base128
import Pkix.Proofs.BigEndian
import Pkix.Proofs.Except

/-!
# Framing

Tags, lengths and elements have one spelling each: the readers accept exactly what the writers
produce.

* `Tag.ofOctets_eq_ok`, `Length.ofOctets_eq_ok`: identifier and length octets.
* `Value.first_eq_ok`: the element that octets begin with. `Value.Framed` says that a content fits
  the four length octets that are read.
* `Value.octets_append_inj`: elements that follow one another can be told apart.
* `Cursor.value_eq_ok`, `Cursor.raw_eq_ok`: the next element of a cursor; `Cursor.Step` says which
  octets were passed over.
-/

namespace Pkix.Der

/-! ## Tags -/

namespace Tag

theorem toNat_lead (t : Tag) {low : Nat} (h : low < 32) :
    (t.lead low).toNat = t.cls.index * 64 + (if t.constructed then 32 else 0) + low := by
  have := t.cls.index_lt
  rw [lead, UInt8.toNat_ofNat']
  split <;> omega

/-- The class, the bit for constructed and the five low bits of `t.lead low` are read back by
`ofOctet`. -/
theorem ofOctet_lead (t : Tag) {low : Nat} (h : low < 32) :
    ofOctet (t.lead low) = { t with number := UInt32.ofNat low } := by
  have hidx := t.cls.index_lt
  have hcls := t.cls.ofIndex_index
  obtain ⟨cls, constructed, number⟩ := t
  rw [ofOctet, toNat_lead _ h]
  cases constructed
  · rw [show (_ + (if false = true then 32 else 0) + low) / 64 = cls.index by simp; omega, hcls,
      show (_ + (if false = true then 32 else 0) + low) / 32 % 2 = 0 by simp; omega,
      show (_ + (if false = true then 32 else 0) + low) % 32 = low by simp; omega]
    rfl
  · rw [show (_ + (if true = true then 32 else 0) + low) / 64 = cls.index by simp; omega, hcls,
      show (_ + (if true = true then 32 else 0) + low) / 32 % 2 = 1 by simp; omega,
      show (_ + (if true = true then 32 else 0) + low) % 32 = low by simp; omega]
    rfl

theorem index_ofIndex {n : Nat} (h : n < 4) : (TagClass.ofIndex n).index = n := by
  match n, h with
  | 0, _ | 1, _ | 2, _ | 3, _ => rfl

theorem lead_ofOctet (x : UInt8) : (ofOctet x).lead (x.toNat % 32) = x := by
  have hx := x.toNat_lt
  apply UInt8.toNat_inj.mp
  rw [toNat_lead _ (by omega)]
  simp only [ofOctet, index_ofIndex (show x.toNat / 64 < 4 by omega), beq_iff_eq]
  split <;> omega

theorem toNat_number_ofOctet (x : UInt8) : (ofOctet x).number.toNat = x.toNat % 32 := by
  rw [ofOctet, UInt32.toNat_ofNat']
  omega

theorem octets_ofOctet {x : UInt8} (h : x.toNat % 32 ≠ 31) : (ofOctet x).octets = [x] := by
  rw [octets, toNat_number_ofOctet, if_pos (by omega), lead_ofOctet]

/-- **Tags.** `ofOctets` reads `t` exactly where `t.octets` come first, whatever `rest` follows. -/
theorem ofOctets_eq_ok {b rest : Bytes} {t : Tag} :
    ofOctets b = .ok (t, rest) ↔ b = t.octets ++ rest := by
  have h128 : UInt32.size % 128 = 0 := by decide
  constructor
  · intro h
    cases b with
    | nil => cases h
    | cons x r =>
      rw [ofOctets] at h
      split at h
      · rename_i hlow
        cases h
        rw [octets_ofOctet hlow]
        rfl
      · rename_i hlow
        rw [Decidable.not_not] at hlow
        split at h
        · cases h
        · rename_i n after hn
          rw [error_ite_eq_ok] at h
          obtain ⟨hshort, h⟩ := h
          cases h
          obtain ⟨rfl, hlt⟩ := (Base128.decode_eq_ok h128).mp hn
          have hnum : (UInt32.ofNat n).toNat = n := UInt32.toNat_ofNat_of_lt' hlt
          have hlead : Tag.lead { ofOctet x with number := UInt32.ofNat n } 31 = x := by
            have := lead_ofOctet x
            rwa [hlow] at this
          rw [octets, hnum, if_neg hshort, hlead]
          rfl
  · rintro rfl
    rw [octets]
    split
    · rename_i hlow
      rw [List.singleton_append, ofOctets, if_pos, ofOctet_lead _ (by omega)]
      · simp
      · rw [toNat_lead _ (by omega)]
        split <;> omega
    · rename_i hlow
      have hlead : (t.lead 31).toNat % 32 = 31 := by
        rw [toNat_lead _ (by omega)]
        split <;> omega
      have hn : Base128.decode UInt32.size (Base128.encode t.number.toNat ++ rest) =
          .ok (t.number.toNat, rest) := (Base128.decode_eq_ok h128).mpr ⟨rfl, t.number.toNat_lt⟩
      rw [List.cons_append, ofOctets, if_neg (by simpa using hlead), hn,
        ofOctet_lead _ (by omega)]
      simp [hlow]

end Tag

/-! ## Lengths -/

namespace Length

/-- **Lengths.** `ofOctets` reads `n` exactly where `octets n` come first and `n` has 32 bits. -/
theorem ofOctets_eq_ok {b rest : Bytes} {n : Nat} :
    ofOctets b = .ok (n, rest) ↔ b = octets n ++ rest ∧ n < UInt32.size := by
  constructor
  · intro h
    cases b with
    | nil => cases h
    | cons x r =>
      have hx := x.toNat_lt
      rw [ofOctets] at h
      split at h
      · rename_i hshort
        rw [octet_lt_0x80] at hshort
        cases h
        rw [octets, if_pos hshort, UInt8.ofNat_toNat, UInt32.size]
        exact ⟨rfl, by omega⟩
      · rename_i hlong
        simp only [error_ite_eq_ok, Except.ok.injEq, Prod.mk.injEq, not_or] at h
        obtain ⟨h80, h84, hlen, ⟨hhead, hmin⟩, rfl, rfl⟩ := h
        rw [octet_lt_0x80] at hlong
        rw [octet_eq_0x80] at h80
        have h84 : x.toNat ≤ 132 := by
          have := mt UInt8.lt_iff_toNat_lt.mpr h84
          simpa using this
        have hcount : (r.take (x.toNat - 128)).length = x.toNat - 128 := by
          have := List.length_take_le (x.toNat - 128) r
          omega
        have hdigits := BigEndian.ofNat_toNat hhead
        have hfour : (r.take (x.toNat - 128)).length ≤ 4 := by omega
        rw [← hdigits] at hfour
        refine ⟨?_, BigEndian.length_ofNat_le_iff.mp hfour⟩
        simp only [octets, if_neg hmin, hdigits, hcount, List.cons_append, List.take_append_drop,
          show 128 + (x.toNat - 128) = x.toNat by omega, UInt8.ofNat_toNat]
  · rintro ⟨rfl, hn⟩
    rw [octets]
    split
    · rename_i hshort
      have hx : (UInt8.ofNat n).toNat = n := UInt8.toNat_ofNat_of_lt' (show n < 256 by omega)
      rw [List.singleton_append, ofOctets, if_pos (octet_lt_0x80.mpr (by omega)), hx]
    · rename_i hlong
      have hle : (BigEndian.ofNat n).length ≤ 4 := BigEndian.length_ofNat_le_iff.mpr hn
      have hpos := List.length_pos_iff.mpr (BigEndian.ofNat_ne_nil (show n ≠ 0 by omega))
      have hx : (UInt8.ofNat (128 + (BigEndian.ofNat n).length)).toNat =
          128 + (BigEndian.ofNat n).length :=
        UInt8.toNat_ofNat_of_lt' (show 128 + (BigEndian.ofNat n).length < 256 by omega)
      have h84 : ¬0x84 < UInt8.ofNat (128 + (BigEndian.ofNat n).length) := by
        rw [UInt8.lt_iff_toNat_lt, hx, show (0x84 : UInt8).toNat = 132 from rfl]
        omega
      rw [List.cons_append, ofOctets, if_neg (mt octet_lt_0x80.mp (by omega)),
        if_neg (mt octet_eq_0x80.mp (by omega)), if_neg h84, hx]
      simp [BigEndian.toNat_ofNat, BigEndian.head?_ofNat, hlong]

end Length

/-! ## Elements -/

namespace Value

/-- The length of the content of `v` fits the four octets that a reader takes. -/
def Framed (v : Value) : Prop := v.content.length < UInt32.size

/-- **Elements.** The octets `b` begin with `v` exactly where `v.octets` stands at their start and
the content of `v` is short enough to be read. -/
theorem first_eq_ok {b : Bytes} {v : Value} :
    first b = .ok v ↔ v.octets <+: b ∧ v.Framed := by
  simp only [first, bind_eq_ok, Prod.exists, error_ite_eq_ok, Except.ok.injEq]
  constructor
  · rintro ⟨tag, b₁, htag, n, b₂, hlen, hover, rfl⟩
    obtain rfl := Tag.ofOctets_eq_ok.mp htag
    obtain ⟨rfl, hn⟩ := Length.ofOctets_eq_ok.mp hlen
    have hcontent : (b₂.take n).length = n := by
      have := List.length_take_le n b₂
      omega
    refine ⟨⟨b₂.drop n, ?_⟩, by rwa [Framed, hcontent]⟩
    simp only [octets, header, hcontent, List.append_assoc, List.take_append_drop]
  · rintro ⟨⟨rest, rfl⟩, hframed⟩
    refine ⟨v.tag, Length.octets v.content.length ++ (v.content ++ rest),
      Tag.ofOctets_eq_ok.mpr ?_, v.content.length, v.content ++ rest,
      Length.ofOctets_eq_ok.mpr ⟨rfl, hframed⟩, ?_, ?_⟩
    · simp [octets, header]
    · simp
    · simp

/-- Elements that follow one another can be told apart: where `v.octets` and `w.octets` both begin,
`v = w`. -/
theorem octets_append_inj {v w : Value} {b b' : Bytes} (hv : v.Framed) (hw : w.Framed)
    (h : v.octets ++ b = w.octets ++ b') : v = w ∧ b = b' := by
  have hfirst : first (v.octets ++ b) = .ok v := first_eq_ok.mpr ⟨List.prefix_append _ _, hv⟩
  have hfirst' : first (w.octets ++ b') = .ok w := first_eq_ok.mpr ⟨List.prefix_append _ _, hw⟩
  rw [h, hfirst'] at hfirst
  cases hfirst
  exact ⟨rfl, List.append_cancel_left h⟩

theorem length_content_le (v : Value) : v.content.length ≤ v.octets.length := by
  simp [octets]

/-- What is no longer than a framed encoding is framed (`Framed`). -/
theorem framed_of_length {v : Value} (h : v.octets.length < UInt32.size) : v.Framed :=
  Nat.lt_of_le_of_lt v.length_content_le h

end Value

/-! ## Cursors -/

namespace Cursor

/-- The octets `b` come next, and `c'` is the cursor after them. -/
def Step (c : Cursor) (b : Bytes) (c' : Cursor) : Prop :=
  b <+: c.rest ∧ c' = c.advance b.length

namespace Step

variable {c c' : Cursor} {b : Bytes}

theorem of_rest {r : Bytes} (h : c.rest = b ++ r) : c.Step b (c.advance b.length) :=
  ⟨⟨r, h.symm⟩, rfl⟩

theorem rest (h : c.Step b c') : c.rest = b ++ c'.rest := by
  obtain ⟨⟨r, hr⟩, rfl⟩ := h
  simp [advance, ← hr]

theorem length_le (h : c.Step b c') : b.length ≤ c.rest.length := h.1.length_le

theorem length_rest (h : c.Step b c') : c.rest.length = b.length + c'.rest.length := by
  rw [h.rest, List.length_append]

theorem limits (h : c.Step b c') : c'.limits = c.limits := by rw [h.2]; rfl

theorem buffer (h : c.Step b c') : c'.buffer = c.buffer := by rw [h.2]; rfl

theorem position (h : c.Step b c') : c'.position = c.position + b.length := by rw [h.2]; rfl

end Step

/-- Octets `b` that come next can be passed over, and `r` is left. -/
theorem exists_step {c : Cursor} {b r : Bytes} (h : c.rest = b ++ r) :
    ∃ c', c.Step b c' ∧ c'.rest = r ∧ c'.limits = c.limits := by
  have hstep : c.Step b (c.advance b.length) := .of_rest h
  have hrest := hstep.rest
  rw [h] at hrest
  exact ⟨_, hstep, (List.append_cancel_left hrest).symm, rfl⟩

theorem step_nil {c c' : Cursor} : c.Step [] c' ↔ c' = c := by
  constructor
  · rintro ⟨-, rfl⟩
    rfl
  · rintro rfl
    exact ⟨List.nil_prefix, rfl⟩

theorem advance_advance (c : Cursor) (m n : Nat) : (c.advance m).advance n = c.advance (m + n) := by
  simp [advance, Nat.add_assoc]

/-- Two steps are one step over what both pass, `a ++ b`. -/
theorem step_append {c c' : Cursor} {a b : Bytes} :
    c.Step (a ++ b) c' ↔ ∃ c₁, c.Step a c₁ ∧ c₁.Step b c' := by
  constructor
  · rintro ⟨⟨r, hr⟩, rfl⟩
    have ha : c.Step a (c.advance a.length) := .of_rest (r := b ++ r) (by simp [← hr])
    have hrest : (c.advance a.length).rest = b ++ r := by
      have := ha.rest
      rw [← hr, List.append_assoc] at this
      exact (List.append_cancel_left this).symm
    exact ⟨_, ha, ⟨r, hrest.symm⟩, by rw [advance_advance, List.length_append]⟩
  · rintro ⟨c₁, ha, hb⟩
    refine ⟨⟨c'.rest, by rw [ha.rest, hb.rest, List.append_assoc]⟩, ?_⟩
    rw [hb.2, ha.2, advance_advance, List.length_append]

/-- **The next element.** The cursor `c` gives `v` exactly where `v.octets` comes next, and goes on
after it with `c'`. -/
theorem value_eq_ok {c c' : Cursor} {v : Value} :
    c.value = .ok (v, c') ↔ c.Step v.octets c' ∧ v.Framed := by
  simp only [value, bind_eq_ok, pure_eq_ok, Value.first_eq_ok, Prod.mk.injEq, Step,
    Value.length_octets]
  constructor
  · rintro ⟨w, ⟨hpre, hframed⟩, rfl, rfl⟩
    exact ⟨⟨hpre, rfl⟩, hframed⟩
  · rintro ⟨⟨hpre, rfl⟩, hframed⟩
    exact ⟨v, ⟨hpre, hframed⟩, rfl, rfl⟩

/-- The octets of the next element (`raw`) are the encoding of the value that stands there
(`value`). -/
theorem raw_eq_ok {c c' : Cursor} {b : Bytes} :
    c.raw = .ok (b, c') ↔ ∃ v, b = v.octets ∧ c.value = .ok (v, c') := by
  simp only [raw, value_eq_ok, bind_eq_ok, pure_eq_ok, Value.first_eq_ok, Prod.mk.injEq, Step,
    Value.length_octets]
  constructor
  · rintro ⟨v, ⟨hpre, hframed⟩, rfl, rfl⟩
    refine ⟨v, ?_, ⟨hpre, rfl⟩, hframed⟩
    rw [← Value.length_octets, ← List.prefix_iff_eq_take.mp hpre]
  · rintro ⟨v, rfl, ⟨hpre, rfl⟩, hframed⟩
    refine ⟨v, ⟨hpre, hframed⟩, ?_, rfl⟩
    rw [← Value.length_octets, ← List.prefix_iff_eq_take.mp hpre]

/-- Nothing is left over (`finish`) exactly where `c.rest` is empty. -/
theorem finish_eq_ok {c : Cursor} {u : Unit} : c.finish = .ok u ↔ c.rest = [] := by
  simp [finish, isEmpty, List.isEmpty_iff]

theorem start_eq_ok {b : Bytes} {limits : Limits} {c : Cursor} :
    start b limits = .ok c ↔ b.length ≤ limits.maxInput ∧ c = ofBuffer b limits := by
  simp only [start, Limits.check, bind_eq_ok, pure_eq_ok, error_ite_eq_ok, Nat.not_lt]
  constructor
  · rintro ⟨_, ⟨hle, -⟩, rfl⟩
    exact ⟨hle, rfl⟩
  · rintro ⟨hle, rfl⟩
    exact ⟨(), ⟨hle, trivial⟩, rfl⟩

end Cursor

/-- Octets `b` that are longer than the limit on inputs are not decoded. -/
theorem decode_of_maxInput_lt {b : Bytes} (h : Limits.default.maxInput < b.length) :
    decode b = .error (.malformed (.inputTooLong b.length Limits.default.maxInput)) := by
  rw [decode, Cursor.start, Limits.check, if_pos h]
  rfl

/-- The octets `b` are read as the one element `v` exactly where they are `v.octets`. -/
theorem decode_eq_ok {b : Bytes} {v : Value} :
    decode b = .ok v ↔ b.length ≤ Limits.default.maxInput ∧ v.octets = b := by
  simp only [decode, bind_eq_ok, pure_eq_ok, Prod.exists, Cursor.start_eq_ok, Cursor.value_eq_ok,
    Cursor.finish_eq_ok]
  constructor
  · rintro ⟨_, ⟨hlen, rfl⟩, w, c, ⟨hstep, -⟩, -, hrest, rfl⟩
    have := hstep.rest
    rw [hrest, List.append_nil] at this
    exact ⟨hlen, this.symm⟩
  · rintro ⟨hlen, rfl⟩
    have hmax : Limits.default.maxInput < UInt32.size := by decide
    have hframed : v.Framed := Value.framed_of_length (by omega)
    refine ⟨_, ⟨hlen, rfl⟩, v, _, ⟨.of_rest (r := []) ?_, hframed⟩, (), ?_, rfl⟩
    · simp [Cursor.ofBuffer]
    · simp [Cursor.ofBuffer, Cursor.advance]

/-- **Framing is exact in both directions.** `c` gives `v` exactly where `v.octets` comes next and
`v.content` is shorter than `2 ^ 32` octets; it then goes on right after the encoding, which is what
`c.raw` gives. Octets `b` within the limit are decoded to `v` exactly where they are `v.octets`. -/
theorem framing_exact (c : Cursor) (v : Value) :
    ((∃ c', c.value = .ok (v, c')) ↔ v.octets <+: c.rest ∧ v.content.length < UInt32.size) ∧
    (∀ c', c.value = .ok (v, c') →
      c'.buffer = c.buffer ∧ c'.limits = c.limits ∧
      c'.position = c.position + v.octets.length ∧ c.raw = .ok (v.octets, c')) ∧
    (∀ b, decode b = .ok v ↔ b.length ≤ Limits.default.maxInput ∧ v.octets = b) := by
  refine ⟨⟨?_, ?_⟩, ?_, fun b => decode_eq_ok⟩
  · rintro ⟨c', h⟩
    obtain ⟨hstep, hframed⟩ := Cursor.value_eq_ok.mp h
    exact ⟨hstep.1, hframed⟩
  · rintro ⟨hpre, hframed⟩
    exact ⟨_, Cursor.value_eq_ok.mpr ⟨⟨hpre, rfl⟩, hframed⟩⟩
  · intro c' h
    obtain ⟨hstep, -⟩ := Cursor.value_eq_ok.mp h
    exact ⟨hstep.buffer, hstep.limits, hstep.position, Cursor.raw_eq_ok.mpr ⟨v, rfl, h⟩⟩

/-- `framing_exact` at a NULL with an octet after it. -/
theorem exists_framing_exact_null :
    ∃ c', (Cursor.ofBuffer [0x05, 0x00, 0x2a] .default).value =
        .ok (Value.ofOctet Tag.null [], c') ∧
      c'.position = 2 ∧
      (Cursor.ofBuffer [0x05, 0x00, 0x2a] .default).raw = .ok ([0x05, 0x00], c') := by
  obtain ⟨hvalue, hafter, -⟩ :=
    framing_exact (Cursor.ofBuffer [0x05, 0x00, 0x2a] .default) (Value.ofOctet Tag.null [])
  obtain ⟨c', h⟩ := hvalue.mpr ⟨by decide, by decide⟩
  obtain ⟨-, -, hposition, hraw⟩ := hafter c' h
  exact ⟨c', h, hposition, hraw⟩

end Pkix.Der
