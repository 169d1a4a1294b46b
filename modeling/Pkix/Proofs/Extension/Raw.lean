import Pkix.Extension.Basic
import Pkix.Oid.Known
import Pkix.Proofs.Der.Canonicity

/-!
# Extensions are read exactly

The flag that says whether an extension is critical has a default. It is written where it is TRUE
and left out where it is FALSE; a reader takes a FALSE that is spelt out as well. This is all the
room there is: an extension that is critical has one encoding and any other has two.

* `Extension.Flag`: the octets for the flag.
* `Extension.readCritical_eq_ok`, `Extension.ofValue_eq_ok`: where the readers succeed.
* `Extension.read_exactly`: the encodings of an extension.
* `Extension.zeros_not_read`: the encoding of one that is too long is not read.
-/

namespace Pkix.Extension

open Der

/-- The octets `flag` say whether an extension is `critical`. -/
def Flag (critical : Bool) (flag : Bytes) : Prop :=
  flag = Write.boolean critical ∨ critical = false ∧ flag = []

/-- What stands inside the SEQUENCE of `e`, with the octets `flag`. -/
def contentWith (e : Extension) (flag : Bytes) : Bytes :=
  Write.oid e.id ++ flag ++ Write.octetString e.value

/-- The encoding of `e` with a FALSE that is spelt out after the identifier. -/
def spelledOut (e : Extension) : Bytes :=
  Write.element Tag.sequence (e.contentWith [0x01, 0x01, 0x00])

/-- The parts of `e` are short enough to be read. -/
def Framed (e : Extension) : Prop :=
  e.id.content.length < UInt32.size ∧ e.value.length < UInt32.size

variable {e : Extension} {critical : Bool} {c c' : Cursor}

/-- The flag `critical` is read where it comes next, or where it is missing and FALSE. -/
theorem readCritical_eq_ok :
    readCritical c = .ok (critical, c') ↔
      c.Step (Write.boolean critical) c' ∨
        critical = false ∧ c.peek ≠ some Tag.boolean ∧ c' = c := by
  simp only [readCritical, bind_eq_ok, Prod.exists]
  constructor
  · rintro ⟨o, c₁, hoptional, hflag⟩
    cases o with
    | none =>
      cases hflag
      exact .inr ⟨rfl, Cursor.optional_eq_none.mp hoptional⟩
    | some v =>
      obtain ⟨b, hb, hpair⟩ := bind_eq_ok.mp hflag
      cases hpair
      obtain ⟨-, hstep, -⟩ := (Cursor.optional_eq_some (by decide)).mp hoptional
      rw [Value.boolean_eq_ok.mp hb] at hstep
      exact .inl hstep
  · rintro (hstep | ⟨rfl, hpeek, rfl⟩)
    · refine ⟨some (Value.ofOctet Tag.boolean [if critical then 0xFF else 0x00]), c',
        (Cursor.optional_eq_some (by decide)).mpr ⟨rfl, hstep, ?_⟩, ?_⟩
      · exact Nat.lt_of_le_of_lt (Nat.le_refl 1) (by decide)
      dsimp only
      rw [Value.boolean_eq_ok.mpr rfl]
      rfl
    · exact ⟨none, c', Cursor.optional_eq_none.mpr ⟨hpeek, rfl⟩, rfl⟩

/-- **Extensions.** `v` is read as `e` exactly where it is a SEQUENCE of the identifier, a `flag`
and the value. -/
theorem ofValue_eq_ok {v : Value} :
    ofValue v = .ok e ↔
      (∃ flag, Flag e.critical flag ∧ v = Value.ofOctet Tag.sequence (e.contentWith flag)) ∧
        e.Framed := by
  obtain ⟨id, critical, value⟩ := e
  simp only [ofValue, ite_error_eq_ok, bind_eq_ok, pure_eq_ok, Prod.exists, Value.is_iff,
    Cursor.oid_eq_ok, Cursor.octetString_eq_ok, readCritical_eq_ok, Cursor.finish_eq_ok,
    Value.cursor, Framed, contentWith]
  constructor
  · rintro ⟨hseq, _, c₁, ⟨hid, hidlen⟩, _, c₂, hflag, _, c₃, ⟨hvalue, hlen⟩, -, hrest, heq⟩
    cases heq
    have hcontent := hid.rest
    have htail := hvalue.rest
    rw [hrest, List.append_nil] at htail
    rw [Cursor.rest_ofBuffer] at hcontent
    refine ⟨?_, hidlen, hlen⟩
    obtain hstep | ⟨hfalse, -, rfl⟩ := hflag
    · rw [hstep.rest, htail, ← List.append_assoc] at hcontent
      exact ⟨Write.boolean critical, .inl rfl, hcontent ▸ hseq⟩
    · rw [htail] at hcontent
      exact ⟨[], .inr ⟨hfalse, rfl⟩, by rw [List.append_nil, ← hcontent]; exact hseq⟩
  · rintro ⟨⟨flag, hflag, rfl⟩, hidlen, hlen⟩
    have hcontent := Cursor.rest_ofBuffer (Write.oid id ++ flag ++ Write.octetString value) .default
    rw [List.append_assoc] at hcontent
    obtain ⟨c₁, hid, hrest₁, -⟩ := Cursor.exists_step hcontent
    obtain ⟨c₂, hstep, hrest₂, -⟩ := Cursor.exists_step hrest₁
    rw [← List.append_nil (Write.octetString value)] at hrest₂
    obtain ⟨c₃, hvalue, hrest₃, -⟩ := Cursor.exists_step hrest₂
    rw [List.append_assoc]
    refine ⟨rfl, id, c₁, ⟨hid, hidlen⟩, critical, c₂, ?_, value, c₃, ⟨hvalue, hlen⟩, (), hrest₃,
      rfl⟩
    obtain rfl | ⟨hfalse, rfl⟩ := hflag
    · exact .inl hstep
    · -- the octet string that follows does not begin like a flag
      obtain rfl := Cursor.step_nil.mp hstep
      have hother : some Tag.octetString ≠ some Tag.boolean := by decide
      rw [Cursor.peek, hrest₁]
      exact .inr ⟨hfalse, hother, rfl⟩

/-- The encodings of `e`, by what its `flag` says. -/
theorem exists_flag_iff {v : Value} :
    (∃ flag, Flag e.critical flag ∧ v = Value.ofOctet Tag.sequence (e.contentWith flag)) ↔
      v.octets = e.octets ∨ e.critical = false ∧ v.octets = e.spelledOut := by
  have hvalue (flag : Bytes) : v = Value.ofOctet Tag.sequence (e.contentWith flag) ↔
      v.octets = Write.element Tag.sequence (e.contentWith flag) := by
    rw [← Value.octets_ofOctet (by decide)]
    exact ⟨congrArg Value.octets, Value.octets_inj⟩
  simp only [hvalue, Flag]
  obtain ⟨id, critical, value⟩ := e
  cases critical with
  | true =>
    constructor
    · rintro ⟨_, rfl | ⟨hfalse, -⟩, hv⟩
      · exact .inl hv
      · cases hfalse
    · rintro (hv | ⟨hfalse, -⟩)
      · exact ⟨_, .inl rfl, hv⟩
      · cases hfalse
  | false =>
    constructor
    · rintro ⟨_, rfl | ⟨-, rfl⟩, hv⟩
      · exact .inr ⟨rfl, hv⟩
      · exact .inl hv
    · rintro (hv | ⟨-, hv⟩)
      · exact ⟨[], .inr ⟨rfl, rfl⟩, hv⟩
      · exact ⟨_, .inl rfl, hv⟩

theorem framed_of_length {flag : Bytes}
    (h : (Write.element Tag.sequence (e.contentWith flag)).length ≤ Limits.default.maxInput) :
    e.Framed := by
  have hcontent := Write.lt_size_of_element_le h
  have hid := Write.length_le_element Tag.oid e.id.content
  have hvalue := Write.length_le_element Tag.octetString e.value
  rw [contentWith, List.length_append, List.length_append, Write.oid, Write.octetString]
    at hcontent
  exact ⟨by omega, by omega⟩

/-- **Extensions are read exactly.** `v` is read as `e` exactly where its encoding is `e.octets` or,
if `e` is not critical, `e.spelledOut`, the same with a FALSE after the identifier; `e.id.content`
and `e.value` have to be short enough for the four length octets that a reader takes, as they are in
whatever was decoded. So what is written within the limit is read back, and no octets `b` but these
are read as `e`. -/
theorem read_exactly (e : Extension) :
    (∀ v : Value, ofValue v = .ok e ↔
      (v.octets = e.octets ∨ e.critical = false ∧ v.octets = e.spelledOut) ∧
        e.id.content.length < UInt32.size ∧ e.value.length < UInt32.size) ∧
    (∀ b : Bytes, decode b >>= ofValue = .ok e ↔
      b.length ≤ Limits.default.maxInput ∧
        (b = e.octets ∨ e.critical = false ∧ b = e.spelledOut)) := by
  have hexact (v : Value) : ofValue v = .ok e ↔
      (v.octets = e.octets ∨ e.critical = false ∧ v.octets = e.spelledOut) ∧ e.Framed := by
    rw [ofValue_eq_ok, exists_flag_iff]
  refine ⟨hexact, fun b => ?_⟩
  simp only [bind_eq_ok, decode_eq_ok, hexact]
  constructor
  · rintro ⟨v, ⟨hlen, rfl⟩, hoctets, -⟩
    exact ⟨hlen, hoctets⟩
  · rintro ⟨hlen, hoctets⟩
    have hflag : ∃ flag, b = Write.element Tag.sequence (e.contentWith flag) := by
      obtain rfl | ⟨-, rfl⟩ := hoctets
      · exact ⟨_, rfl⟩
      · exact ⟨_, rfl⟩
    obtain ⟨flag, rfl⟩ := hflag
    have hvalue := Value.octets_ofOctet (show Value.Short Tag.sequence by decide)
      (e.contentWith flag)
    exact ⟨_, ⟨hlen, hvalue⟩, hvalue ▸ hoctets, framed_of_length hlen⟩

/-! ## Extensions that are too long -/

/-- An extension with `count` zero octets as its value. -/
def zeros (count : Nat) : Extension := ⟨Oid.commonName, false, List.replicate count 0⟩

/-- The value that `zeros count` is written as. -/
def zerosValue (count : Nat) : Value := Value.ofOctet Tag.sequence ((zeros count).contentWith [])

theorem octets_zerosValue (count : Nat) : (zerosValue count).octets = (zeros count).octets := by
  rw [zerosValue, Value.octets_ofOctet (by decide)]
  rfl

theorem ofValue_zerosValue_ne (count : Nat) (h : UInt32.size ≤ count) :
    ofValue (zerosValue count) ≠ .ok (zeros count) := by
  intro hread
  have hvalue : (List.replicate count (0 : UInt8)).length < UInt32.size :=
    (ofValue_eq_ok.mp hread).2.2
  rw [List.length_replicate] at hvalue
  omega

theorem lt_length_octets_zeros (count : Nat) : count < (zeros count).octets.length := by
  simp only [octets, zeros, Write.octetString, Write.element, List.length_cons, List.length_append,
    List.length_replicate]
  omega

/-- Not every extension is read from the value that it is written as, `zerosValue`: the length of
`2 ^ 32` octets does not go into the four octets that a reader takes for it. From `2 ^ 26` on the
octets of an extension are over the limit on inputs, so `decode` does not take them. -/
theorem zeros_not_read :
    (zerosValue UInt32.size).octets = (zeros UInt32.size).octets ∧
      ofValue (zerosValue UInt32.size) ≠ .ok (zeros UInt32.size) ∧
      decode (zeros Limits.default.maxInput).octets = .error (.malformed (.inputTooLong
        (zeros Limits.default.maxInput).octets.length Limits.default.maxInput)) :=
  ⟨octets_zerosValue _, ofValue_zerosValue_ne _ (Nat.le_refl _),
    decode_of_maxInput_lt (lt_length_octets_zeros _)⟩

end Pkix.Extension
