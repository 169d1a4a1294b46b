import Pkix.Der.Encoder
import Pkix.Proofs.Der.BitString
import Pkix.Proofs.Time.Content

/-!
# What an encoder wrote is read back

* `Encoder.on_element`, `Encoder.on_bits`, `Encoder.on_value`: three ways of writing, one encoding.
* `Encoder.Step.writes_or_fails`: what one call does. `Encoder.Step.put_on_nil_iff`: the value that
  it wrote.
* `Encoder.session_eq`: what calls do one after the other.
* `Encoder.Step.Fits`: what a reader can take. `Encoder.Reads`: what it is asked for and says.
* `Encoder.session_reads_back`: one element for every call that succeeded, and each says what was
  put.
-/

namespace Pkix.Der.Encoder

variable {tag : UInt8} {content buffer : Bytes}

/-! ## The ways of writing -/

theorem on_push (b buffer : Bytes) : (push b).on buffer = (.ok (), buffer ++ b) := rfl

theorem on_element (tag : UInt8) (content buffer : Bytes) :
    (element tag content).on buffer = (.ok (), buffer ++ Write.element tag content) := by
  show (_, buffer ++ [tag] ++ _ ++ _) = _
  rw [Write.element, List.append_assoc, List.append_assoc]
  rfl

theorem on_bits (unused : UInt8) (octets buffer : Bytes) :
    (bits unused octets).on buffer =
      (.ok (), buffer ++ Write.element Tag.bitString (unused :: octets)) := by
  show (_, buffer ++ [_] ++ _ ++ [unused] ++ octets) = _
  rw [Write.element, List.append_assoc, List.append_assoc, List.append_assoc]
  rfl

theorem on_value (v : Value) (buffer : Bytes) :
    (value v).on buffer = (.ok (), buffer ++ v.octets) := by
  show (_, buffer ++ _ ++ _ ++ _) = _
  rw [Value.octets, Value.header, List.append_assoc, List.append_assoc, List.append_assoc]

/-- What comes after a writer `e` that succeeded goes on with its buffer, `after`. -/
theorem on_bind_ok {e : Encoder Unit} {f : Unit → Encoder Unit} {after : Bytes}
    (h : e.on buffer = (.ok (), after)) : (e >>= f).on buffer = (f ()).on after := by
  simp only [on, ExceptT.run_bind, StateT.run_bind] at h ⊢
  rw [h]
  rfl

theorem on_forM {α : Type} {f : α → Encoder Unit} {g : α → Bytes}
    (h : ∀ x buffer, (f x).on buffer = (.ok (), buffer ++ g x)) (xs : List α) (buffer : Bytes) :
    (xs.forM f).on buffer = (.ok (), buffer ++ xs.flatMap g) := by
  induction xs generalizing buffer with
  | nil =>
    rw [List.flatMap_nil, List.append_nil]
    rfl
  | cons x xs ih =>
    have hnext : ((x :: xs).forM f).on buffer = (xs.forM f).on (buffer ++ g x) :=
      on_bind_ok (h x buffer)
    rw [hnext, ih, List.flatMap_cons, List.append_assoc]

/-- The writer `e` appends the octets of `v`. -/
def Writes (e : Encoder Unit) (v : Value) : Prop :=
  ∀ buffer, e.on buffer = (.ok (), buffer ++ v.octets)

/-- The writer `e` fails with `error` and leaves the buffer as it was. -/
def Fails (e : Encoder Unit) (error : Error) : Prop :=
  ∀ buffer, e.on buffer = (.error error, buffer)

theorem writes_element (h : Value.Short tag) :
    Writes (element tag content) (.ofOctet tag content) := by
  intro buffer
  rw [on_element, Value.octets_ofOctet h]

theorem writes_bits (unused : UInt8) (octets : Bytes) :
    Writes (bits unused octets) (.ofOctet Tag.bitString (unused :: octets)) := by
  intro buffer
  rw [on_bits, Value.octets_ofOctet (by decide)]

/-- A content that cannot be spelled (`content?` is an error) is not begun to be written. -/
theorem writes_or_fails_content {content? : Except Error Bytes} {refused : Error → Prop}
    (htag : Value.Short tag) (h : ∀ e, content? = .error e → refused e) :
    (∃ v, content?.toOption.map (Value.ofOctet tag) = some v ∧
        Writes (do element tag (← content?)) v) ∨
      content?.toOption.map (Value.ofOctet tag) = none ∧
        ∃ e, refused e ∧ Fails (do element tag (← content?)) e := by
  cases content? with
  | ok b => exact .inl ⟨_, rfl, writes_element htag⟩
  | error e => exact .inr ⟨rfl, e, h e rfl, fun _ => rfl⟩

theorem octets_values (vs : List Value) : octets (vs.forM value) = Write.values vs := by
  rw [octets, on_forM on_value, List.nil_append, Write.values]

theorem octets_forM_push (encodings : List Bytes) :
    octets (encodings.forM push) = encodings.flatten := by
  rw [octets, on_forM on_push, List.nil_append]
  exact List.flatMap_id'

/-! ## One call -/

namespace Step

/-- The value that the call writes: `none` for one that is no element (`raw`), depends on what was
written (`implicit`) or is refused. -/
def value? : Step → Option Value
  | .integer n => some (.ofOctet Tag.integer (BigEndian.ofInt n))
  | .word n => some (.ofOctet Tag.integer (BigEndian.ofInt n.toNat))
  | .enumerated n => some (.ofOctet Tag.enumerated (BigEndian.ofInt n.toInt))
  | .boolean b => some (.ofOctet Tag.boolean [if b then 0xFF else 0x00])
  | .null => some (.ofOctet Tag.null [])
  | .oid id => some (.ofOctet Tag.oid id.content)
  | .octetString b => some (.ofOctet Tag.octetString b)
  | .wholeBits b => some (.ofOctet Tag.bitString (0 :: b))
  | .bitString s => some (.ofOctet Tag.bitString (s.unused :: s.octets))
  | .namedBits s => some (.ofOctet Tag.bitString (s.truncated.unused :: s.truncated.octets))
  | .utcTime t => t.utcContent.toOption.map (.ofOctet Tag.utcTime)
  | .generalizedTime t => t.generalizedContent.toOption.map (.ofOctet Tag.generalizedTime)
  | .value v => some v
  | .sequence vs => some (.ofOctet Tag.sequence (Write.values vs))
  | .setOf tag vs => some (.ofOctet tag (Write.values (SetOrder.sortBy Value.octets vs)))
  | .write tag steps => some (.ofOctet tag (session steps []).2)
  | .raw _ | .implicit .. => none

/-- The calls that are made within a `write`. -/
def parts : Step → List Step
  | .write _ steps => steps
  | _ => []

/-- The call writes one element, under an octet that spells a whole tag (`Value.Short`), and no more
elements in it than a reader takes. -/
def Whole : Step → Prop
  | .raw _ | .implicit .. => False
  | .sequence vs => vs.length ≤ Limits.default.maxElements
  | .setOf tag vs => Value.Short tag ∧ vs.length ≤ Limits.default.maxElements
  | .write tag steps => Value.Short tag ∧ steps.length ≤ Limits.default.maxElements
  | _ => True

/-- The call `s` is whole and its content is shorter than `2 ^ 32` octets, and so are the calls
within. -/
inductive Fits : Step → Prop
  | intro {s : Step} (whole : s.Whole) (framed : ∀ v ∈ s.value?, v.Framed)
      (parts : ∀ part ∈ s.parts, part.Fits) : Fits s

/-- The call is refused with the error: it is for a time `t` of a year that the type cannot spell,
which may be outside of the calendar (`t.refusal`). -/
def Refused : Step → Error → Prop
  | .utcTime t, e => ¬(1950 ≤ t.utcYear ∧ t.utcYear < 2050) ∧ e = t.refusal .utc
  | .generalizedTime t, e => ¬(0 ≤ t.utcYear ∧ t.utcYear ≤ 9999) ∧ e = t.refusal .generalized
  | _, _ => False

/-- The call `s` succeeds. -/
def accepted (s : Step) : Bool := (s.put.on []).1.isOk

variable {s : Step}

/-- A whole call `s` writes its value, or it is refused and fails. -/
theorem writes_or_fails (h : s.Whole) :
    (∃ v, s.value? = some v ∧ Writes s.put v) ∨
      s.value? = none ∧ ∃ e, s.Refused e ∧ Fails s.put e := by
  cases s with
  | integer | word | enumerated | boolean | null | oid | octetString =>
    refine .inl ⟨_, rfl, ?_⟩
    rw [put]
    exact writes_element (by decide)
  | wholeBits | bitString | namedBits =>
    refine .inl ⟨_, rfl, ?_⟩
    rw [put]
    exact writes_bits _ _
  | utcTime t =>
    rw [put, value?]
    refine writes_or_fails_content (by decide) fun e he => ?_
    rw [Time.utcContent_eq, ite_ok_eq_error] at he
    exact he
  | generalizedTime t =>
    rw [put, value?]
    refine writes_or_fails_content (by decide) fun e he => ?_
    rw [Time.generalizedContent_eq, ite_ok_eq_error] at he
    exact he
  | value v =>
    refine .inl ⟨v, rfl, ?_⟩
    rw [put]
    exact on_value v
  | sequence vs =>
    refine .inl ⟨_, rfl, ?_⟩
    rw [put, octets_values]
    exact writes_element (by decide)
  | setOf tag vs =>
    refine .inl ⟨_, rfl, ?_⟩
    rw [put, octets_forM_push, ← SetOrder.map_sortBy, ← Write.values_eq_flatten]
    exact writes_element h.1
  | write tag steps =>
    refine .inl ⟨_, rfl, ?_⟩
    rw [put]
    exact writes_element h.1
  | raw | «implicit» => exact absurd h id

/-- A whole call `s` succeeds where there is a value for it to write. -/
theorem accepted_eq (h : s.Whole) : s.accepted = s.value?.isSome := by
  obtain ⟨v, hv, hwrites⟩ | ⟨hnone, e, -, hfails⟩ := writes_or_fails h
  · rw [accepted, hwrites, hv]
    rfl
  · rw [accepted, hfails, hnone]
    rfl

/-- Values have one encoding, so what `s` writes to a fresh buffer tells its value `w`. -/
theorem put_on_nil_iff {v w : Value} (h : s.Whole) (hw : s.value? = some w) :
    s.put.on [] = (.ok (), v.octets) ↔ v = w := by
  obtain ⟨w', hw', hwrites⟩ | ⟨hnone, -⟩ := writes_or_fails h
  · obtain rfl : w' = w := Option.some.inj (hw'.symm.trans hw)
    rw [hwrites, List.nil_append]
    constructor
    · intro hoctets
      exact Value.octets_inj (congrArg Prod.snd hoctets).symm
    · rintro rfl
      rfl
  · rw [hnone] at hw
    cases hw

end Step

/-! ## Calls one after the other -/

variable {steps : List Step}

/-- What is in the `buffer` does not change what the calls `steps` do, and they only write after
it. -/
theorem session_eq (h : ∀ s ∈ steps, s.Whole) (buffer : Bytes) :
    session steps buffer = (steps.map fun s => (s.put.on []).1,
      buffer ++ Write.values (steps.filterMap Step.value?)) := by
  induction steps generalizing buffer with
  | nil =>
    rw [session, List.filterMap_nil]
    exact congrArg (Prod.mk []) (List.append_nil buffer).symm
  | cons s steps ih =>
    obtain ⟨hs, hsteps⟩ := List.forall_mem_cons.mp h
    rw [session]
    obtain ⟨v, hv, hwrites⟩ | ⟨hnone, e, -, hfails⟩ := Step.writes_or_fails hs
    · simp only [hwrites buffer, ih hsteps, List.map_cons, hwrites [], List.filterMap_cons, hv,
        Write.values_cons, List.append_assoc]
    · simp only [hfails buffer, ih hsteps, List.map_cons, hfails [], List.filterMap_cons, hnone]

/-- `Reads s v`: what a reader is asked for and says of `v` is what the call `s` put. -/
inductive Reads : Step → Value → Prop
  | integer {n : Int} {v : Value} (h : v.integer = .ok n) : Reads (.integer n) v
  | word {n : UInt32} {v : Value} (h : v.word = .ok n) : Reads (.word n) v
  | enumerated {n : Int64} {v : Value} (h : v.enumerated = .ok n) : Reads (.enumerated n) v
  | boolean {b : Bool} {v : Value} (h : v.boolean = .ok b) : Reads (.boolean b) v
  | null {v : Value} (h : v.null = .ok ()) : Reads .null v
  | oid {id : Oid} {v : Value} (h : v.oid = .ok id) : Reads (.oid id) v
  | octetString {b : Bytes} {v : Value} (h : v.octetString = .ok b) : Reads (.octetString b) v
  | wholeBits {b : Bytes} {v : Value} (h : v.wholeBits = .ok b) : Reads (.wholeBits b) v
  | bitString {s : BitString} {v : Value} (h : v.bitString = .ok s) : Reads (.bitString s) v
  /-- The bits of `s` up to the last one that is set. -/
  | namedBits {s s' : BitString} {v : Value} (h : v.bitString = .ok s')
      (bits : s'.toBools = BitString.trim s.toBools) : Reads (.namedBits s) v
  | utcTime {t : Time} {v : Value} (h : v.utcTime = .ok t.wholeSecond) : Reads (.utcTime t) v
  | generalizedTime {t : Time} {v : Value} (h : v.generalizedTime = .ok t.wholeSecond) :
      Reads (.generalizedTime t) v
  | value {v : Value} : Reads (.value v) v
  | sequence {vs : List Value} {v : Value} (h : v.children .default = .ok vs) :
      Reads (.sequence vs) v
  /-- The same elements in some order, `us`. Those of a primitive value are its content's. -/
  | setOf {tag : UInt8} {vs us : List Value} {v : Value} (tag_eq : v.tag = Tag.ofOctet tag)
      (perm : us.Perm vs) (content : (v.cursor .default).all = .ok us)
      (children : v.tag.constructed = true → v.children .default = .ok us) :
      Reads (.setOf tag vs) v
  /-- An element of `us` for every call of `steps` that succeeded. -/
  | write {tag : UInt8} {steps : List Step} {us : List Value} {v : Value}
      (tag_eq : v.tag = Tag.ofOctet tag)
      (parts : List.Forall₂ Reads (steps.filter Step.accepted) us)
      (content : (v.cursor .default).all = .ok us)
      (children : v.tag.constructed = true → v.children .default = .ok us) :
      Reads (.write tag steps) v

/-- Calls whose values read as put leave such a value for every one of `steps` that succeeded. -/
theorem forall₂_reads (hwhole : ∀ s ∈ steps, s.Whole)
    (h : ∀ s ∈ steps, ∀ v ∈ s.value?, Reads s v) :
    List.Forall₂ Reads (steps.filter Step.accepted) (steps.filterMap Step.value?) := by
  induction steps with
  | nil => exact .nil
  | cons s steps ih =>
    obtain ⟨hs, hsteps⟩ := List.forall_mem_cons.mp hwhole
    obtain ⟨hreads, hrest⟩ := List.forall_mem_cons.mp h
    rw [List.filter_cons, Step.accepted_eq hs, List.filterMap_cons]
    cases hv : s.value? with
    | none => exact ih hsteps hrest
    | some v => exact .cons (hreads v hv) (ih hsteps hrest)

theorem children_of_all {v : Value} {us : List Value} (h : (v.cursor .default).all = .ok us)
    (hconstructed : v.tag.constructed = true) : v.children .default = .ok us := by
  rw [Value.children, if_pos hconstructed, h]

/-- A reader takes the values `vs` of a content that is not too long. -/
theorem all_ofOctet (tag : UInt8) {vs : List Value} (h : (Write.values vs).length < UInt32.size)
    (hcount : vs.length ≤ Limits.default.maxElements) :
    ((Value.ofOctet tag (Write.values vs)).cursor .default).all = .ok vs :=
  Cursor.all_eq_ok.mpr ⟨rfl, Write.framed_of_values h, hcount⟩

namespace Step.Fits

variable {s : Step}

theorem whole : s.Fits → s.Whole
  | .intro whole _ _ => whole

theorem framed : s.Fits → ∀ v ∈ s.value?, v.Framed
  | .intro _ framed _ => framed

/-- The value that the call `s` writes reads as what was put. -/
theorem reads (h : s.Fits) : ∀ v ∈ s.value?, Reads s v := by
  induction h with
  | @intro s whole framed parts ih =>
    intro v hv
    have hframed := framed v hv
    cases s with
    | integer n =>
      cases hv
      exact .integer (Value.integer_eq_ok.mpr rfl)
    | word n =>
      cases hv
      exact .word (Value.word_eq_ok.mpr rfl)
    | enumerated n =>
      cases hv
      exact .enumerated (Value.enumerated_eq_ok.mpr rfl)
    | boolean b =>
      cases hv
      cases b <;> exact .boolean rfl
    | null =>
      cases hv
      exact .null rfl
    | oid id =>
      cases hv
      exact .oid (Value.oid_eq_ok.mpr rfl)
    | octetString b =>
      cases hv
      exact .octetString rfl
    | wholeBits b =>
      cases hv
      exact .wholeBits rfl
    | bitString s =>
      cases hv
      exact .bitString (Value.bitString_eq_ok.mpr rfl)
    | namedBits s =>
      cases hv
      exact .namedBits (Value.bitString_eq_ok.mpr rfl) (BitString.toBools_ofBools _)
    | utcTime t =>
      obtain ⟨b, hb, rfl⟩ := exists_of_map_toOption hv
      exact .utcTime (Time.ofContent_utcContent hb)
    | generalizedTime t =>
      obtain ⟨b, hb, rfl⟩ := exists_of_map_toOption hv
      exact .generalizedTime (Time.ofContent_generalizedContent hb)
    | value w =>
      cases hv
      exact .value
    | sequence vs =>
      cases hv
      exact .sequence (children_of_all (all_ofOctet _ hframed whole) rfl)
    | setOf tag vs =>
      cases hv
      have hall := all_ofOctet tag hframed
        (Nat.le_trans (SetOrder.length_sortBy _ vs).le whole.2)
      exact .setOf rfl (SetOrder.sortBy_perm _ vs) hall (children_of_all hall)
    | write tag steps =>
      -- The calls within started on a fresh buffer, so what they left is the content.
      have hwhole : ∀ part ∈ steps, part.Whole := fun part hpart => (parts part hpart).whole
      rw [value?, session_eq hwhole, List.nil_append] at hv
      cases hv
      have hall := all_ofOctet tag hframed
        (Nat.le_trans (List.length_filterMap_le _ steps) whole.2)
      exact .write rfl (forall₂_reads hwhole ih) hall (children_of_all hall)
    | raw | «implicit» => cases hv

end Step.Fits

/-- **What an encoder wrote is read back.** Each of the calls `steps` appends one element, whatever
is in the buffer, or is for a time that cannot be spelled and appends nothing (`Step.Refused`); a
reader then takes one element of `vs` for every call that succeeded, in their order, and each says
what was put. -/
theorem session_reads_back (hlen : steps.length ≤ Limits.default.maxElements)
    (h : ∀ s ∈ steps, s.Fits) :
    (∀ s ∈ steps, (∃ v, Reads s v ∧ Writes s.put v) ∨ ∃ e, s.Refused e ∧ Fails s.put e) ∧
      (session steps []).1 = steps.map (fun s => (s.put.on []).1) ∧
      ∃ vs, (Cursor.ofBuffer (session steps []).2 .default).all = .ok vs ∧
        List.Forall₂ Reads (steps.filter Step.accepted) vs := by
  have hwhole : ∀ s ∈ steps, s.Whole := fun s hs => (h s hs).whole
  have hreads : ∀ s ∈ steps, ∀ v ∈ s.value?, Reads s v := fun s hs => (h s hs).reads
  rw [session_eq hwhole]
  refine ⟨fun s hs => ?_, rfl, _, Cursor.all_eq_ok.mpr ⟨rfl, fun v hv => ?_, ?_⟩,
    forall₂_reads hwhole hreads⟩
  · obtain ⟨v, hv, hwrites⟩ | ⟨-, hrefused⟩ := Step.writes_or_fails (hwhole s hs)
    · exact .inl ⟨v, hreads s hs v hv, hwrites⟩
    · exact .inr hrefused
  · obtain ⟨s, hs, hv⟩ := List.mem_filterMap.mp hv
    exact (h s hs).framed v hv
  · exact Nat.le_trans (List.length_filterMap_le _ steps) hlen

/-- `session_reads_back` where a year after 2049 is refused within an element, and what is around it
stays. -/
theorem exists_session_read_back :
    ∃ steps : List Step, (∀ s ∈ steps, s.Fits) ∧
      (session steps []).2 = [0x01, 0x01, 0xFF, 0xA0, 0x04, 0x02, 0x02, 0xFF, 0x7F] ∧
      ∃ vs, (Cursor.ofBuffer (session steps []).2 .default).all = .ok vs ∧
        List.Forall₂ Reads (steps.filter Step.accepted) vs := by
  have hparts : ∀ part ∈ [Step.utcTime ⟨2524608000, 0, 0⟩, .integer (-129)], part.Fits := by
    refine List.forall_mem_cons.mpr ⟨.intro trivial ?_ (by simp [Step.parts]),
      List.forall_mem_cons.mpr ⟨.intro trivial ?_ (by simp [Step.parts]), by simp⟩⟩
    · rintro v ⟨⟩
    · rintro v ⟨⟩
      show (BigEndian.ofInt (-129)).length < UInt32.size
      decide +kernel
  have hsteps : ∀ s ∈ [Step.boolean true,
      .write 0xA0 [.utcTime ⟨2524608000, 0, 0⟩, .integer (-129)]], s.Fits := by
    refine List.forall_mem_cons.mpr ⟨.intro trivial ?_ (by simp [Step.parts]),
      List.forall_mem_cons.mpr ⟨.intro ⟨by decide, by decide⟩ ?_ hparts, by simp⟩⟩
    · rintro v ⟨⟩
      exact (by decide : 1 < UInt32.size)
    · rintro v ⟨⟩
      show (session _ []).2.length < UInt32.size
      decide +kernel
  exact ⟨_, hsteps, by decide +kernel, (session_reads_back (by decide) hsteps).2.2⟩

end Pkix.Der.Encoder
