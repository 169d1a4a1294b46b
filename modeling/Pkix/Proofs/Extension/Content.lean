import Pkix.Extension.Attributes
import Pkix.Proofs.Der.BitString
import Pkix.Proofs.Time.Content

/-!
# Contents of extensions are read back

The octets of a content are read as a content that says the same. It need not be the same content:
trailing bits that are not set, an empty list of purposes and fractions of a second are not written.

* `Content.Agrees`: two contents say the same; `Content.canonical` is the one that is read back.
* `Content.Regular`: the content has a type if its identifier is that of a known kind.
* `Content.decode_value`: what the octets of a content are read as.
-/

namespace Pkix

open Der

namespace Content

/-! ## What a content says -/

/-- The contents are of the same kind and say the same: the nine uses of a key (`KeyUse.get`), the
purposes where no list counts as an empty one, times to the whole second, and all else as it is. -/
inductive Agrees : Content → Content → Prop
  | keyUsage {bits bits' : List Bool} (h : ∀ u, KeyUse.get bits u = KeyUse.get bits' u) :
    Agrees (keyUsage bits) (keyUsage bits')
  | subjectKeyIdentifier (keyId : Option Bytes) :
    Agrees (subjectKeyIdentifier keyId) (subjectKeyIdentifier keyId)
  | extendedKeyUsage {purposes purposes' : Option (List Oid)}
      (h : purposes.getD [] = purposes'.getD []) :
    Agrees (extendedKeyUsage purposes) (extendedKeyUsage purposes')
  | privateKeyUsage {before before' after after' : Option Time}
      (hbefore : before.map Time.wholeSecond = before'.map Time.wholeSecond)
      (hafter : after.map Time.wholeSecond = after'.map Time.wholeSecond) :
    Agrees (privateKeyUsage before after) (privateKeyUsage before' after')
  | reasonCode (code : Int64) : Agrees (reasonCode code) (reasonCode code)
  | invalidityDate {date date' : Option Time}
      (h : date.map Time.wholeSecond = date'.map Time.wholeSecond) :
    Agrees (invalidityDate date) (invalidityDate date')
  | deltaCrlIndicator (base : Option Int) : Agrees (deltaCrlIndicator base) (deltaCrlIndicator base)
  | ocspNoCheck : Agrees ocspNoCheck ocspNoCheck
  | unrecognized (id : Oid) (value : Bytes) : Agrees (unrecognized id value) (unrecognized id value)

/-- The content without what is not written: idle bits, an empty list of purposes, fractions of a
second. -/
def canonical : Content → Content
  | keyUsage bits => keyUsage (BitString.trim bits)
  | extendedKeyUsage (some []) => extendedKeyUsage none
  | privateKeyUsage before after =>
    privateKeyUsage (before.map Time.wholeSecond) (after.map Time.wholeSecond)
  | invalidityDate date => invalidityDate (date.map Time.wholeSecond)
  | c => c

theorem map_wholeSecond_map_wholeSecond (t : Option Time) :
    (t.map Time.wholeSecond).map Time.wholeSecond = t.map Time.wholeSecond := by
  cases t <;> rfl

theorem agrees_canonical (c : Content) : c.Agrees c.canonical := by
  cases c with
  | keyUsage bits => exact .keyUsage fun u => (BitString.getD_trim bits u.index).symm
  | extendedKeyUsage purposes =>
    match purposes with
    | none => exact .extendedKeyUsage rfl
    | some [] => exact .extendedKeyUsage rfl
    | some (_ :: _) => exact .extendedKeyUsage rfl
  | privateKeyUsage before after =>
    exact .privateKeyUsage (map_wholeSecond_map_wholeSecond before).symm
      (map_wholeSecond_map_wholeSecond after).symm
  | invalidityDate date => exact .invalidityDate (map_wholeSecond_map_wholeSecond date).symm
  | _ => constructor

theorem Agrees.oid {c d : Content} (h : c.Agrees d) : d.oid = c.oid := by cases h <;> rfl

/-- What `c.canonical` leaves out is not written. -/
theorem value_canonical (c : Content) : c.canonical.value = c.value := by
  cases c with
  | keyUsage bits => simp only [canonical, value, Write.namedBits_ofBools, BitString.trim_trim]
  | extendedKeyUsage purposes =>
    match purposes with
    | none => rfl
    | some [] => rfl
    | some (_ :: _) => rfl
  | privateKeyUsage before after => cases before <;> cases after <;> rfl
  | invalidityDate date => cases date <;> rfl
  | _ => rfl

/-! ## Kinds -/

/-- The identifiers of the kinds that have a type of content of their own, other than
`unrecognized`. -/
def knownIds : List Oid :=
  [Oid.keyUsage, Oid.subjectKeyIdentifier, Oid.extendedKeyUsage, Oid.privateKeyUsagePeriod,
    Oid.reasonCode, Oid.invalidityDate, Oid.deltaCrlIndicator, Oid.ocspNoCheck]

/-- `c` keeps octets unread only under the identifier of no known kind. -/
def Regular (c : Content) : Prop := c.setName? = none → c.oid ∉ knownIds

/-- `Reads id octets c`: what octets are read as, kind by kind. The bits of a key usage take up no
more than the `octets` that they are read from. -/
inductive Reads : Oid → Bytes → Content → Prop
  | keyUsage {octets : Bytes} (s : BitString) (h : (Write.bitString s).length ≤ octets.length)
      (hlen : octets.length ≤ Limits.default.maxInput) :
    Reads Oid.keyUsage octets (keyUsage s.toBools)
  | subjectKeyIdentifier {octets : Bytes} {keyId : Option Bytes}
      (h : optionally octets Value.octetString = .ok keyId) :
    Reads Oid.subjectKeyIdentifier octets (subjectKeyIdentifier keyId)
  | extendedKeyUsage {octets : Bytes} {purposes : Option (List Oid)}
      (h : optionally octets readPurposes = .ok purposes) :
    Reads Oid.extendedKeyUsage octets (extendedKeyUsage purposes)
  | privateKeyUsage {octets : Bytes} {bounds : Option (Option Time × Option Time)}
      (h : optionally octets readPeriod = .ok bounds) :
    Reads Oid.privateKeyUsagePeriod octets
      (privateKeyUsage (bounds.getD (none, none)).1 (bounds.getD (none, none)).2)
  | reasonCode {octets : Bytes} {code : Option Int64}
      (h : optionally octets Value.enumerated = .ok code) :
    Reads Oid.reasonCode octets (reasonCode (code.getD 0))
  | invalidityDate {octets : Bytes} {date : Option Time}
      (h : optionally octets Value.generalizedTime = .ok date) :
    Reads Oid.invalidityDate octets (invalidityDate date)
  | deltaCrlIndicator {octets : Bytes} {base : Option Int}
      (h : optionally octets Value.integer = .ok base) :
    Reads Oid.deltaCrlIndicator octets (deltaCrlIndicator base)
  | ocspNoCheck {octets : Bytes} : Reads Oid.ocspNoCheck octets ocspNoCheck
  | unrecognized {id : Oid} {octets : Bytes} (h : id ∉ knownIds) :
    Reads id octets (unrecognized id octets)

/-- Under an identifier `id` of no known kind the octets `value` are kept. -/
theorem decode_of_notMem {id : Oid} (h : id ∉ knownIds) (value : Bytes) :
    decode id value = .ok (unrecognized id value) := by
  simp only [knownIds, List.mem_cons, List.not_mem_nil, or_false, not_or] at h
  obtain ⟨h₁, h₂, h₃, h₄, h₅, h₆, h₇, h₈⟩ := h
  rw [decode, if_neg h₁, if_neg h₂, if_neg h₃, if_neg h₄, if_neg h₅, if_neg h₆, if_neg h₇,
    if_neg h₈]

theorem octets_of_bitString {v : Value} {s : BitString} (h : v.bitString = .ok s) :
    v.octets = Write.bitString s := by
  rw [Value.bitString_eq_ok.mp h, Value.octets_ofOctet (by decide)]
  rfl

/-- The bit string of a key usage is the element that `octets` are or, in an octet string, its
content. -/
theorem reads_keyUsage {octets : Bytes} {c : Content} (h : decodeKeyUsage octets = .ok c) :
    Reads Oid.keyUsage octets c := by
  simp only [decodeKeyUsage, bind_eq_ok] at h
  obtain ⟨v, hv, h⟩ := h
  obtain ⟨hlen, rfl⟩ := decode_eq_ok.mp hv
  split at h
  · simp only [bind_eq_ok, pure_eq_ok] at h
    obtain ⟨w, hw, s, hs, rfl⟩ := h
    refine .keyUsage s ?_ hlen
    rw [← octets_of_bitString hs, (decode_eq_ok.mp hw).2]
    exact v.length_content_le
  · simp only [bind_eq_ok, pure_eq_ok] at h
    obtain ⟨_, rfl, s, hs, rfl⟩ := h
    exact .keyUsage s (Nat.le_of_eq (congrArg List.length (octets_of_bitString hs).symm)) hlen

/-- Reading goes by the kind that the identifier `id` names. -/
theorem reads_of_decode {id : Oid} {octets : Bytes} {c : Content} (h : decode id octets = .ok c) :
    Reads id octets c := by
  by_cases hid : id ∈ knownIds
  · simp only [knownIds, List.mem_cons, List.not_mem_nil, or_false] at hid
    obtain rfl | rfl | rfl | rfl | rfl | rfl | rfl | rfl := hid
    · exact reads_keyUsage h
    · obtain ⟨keyId, hread, hc⟩ := bind_eq_ok.mp h
      cases hc
      exact .subjectKeyIdentifier hread
    · obtain ⟨purposes, hread, hc⟩ := bind_eq_ok.mp h
      cases hc
      exact .extendedKeyUsage hread
    · obtain ⟨bounds, hread, hc⟩ := bind_eq_ok.mp h
      cases hc
      exact .privateKeyUsage hread
    · obtain ⟨code, hread, hc⟩ := bind_eq_ok.mp h
      cases hc
      exact .reasonCode hread
    · obtain ⟨date, hread, hc⟩ := bind_eq_ok.mp h
      cases hc
      exact .invalidityDate hread
    · obtain ⟨base, hread, hc⟩ := bind_eq_ok.mp h
      cases hc
      exact .deltaCrlIndicator hread
    · cases h
      exact .ocspNoCheck
  · rw [decode_of_notMem hid] at h
    cases h
    exact .unrecognized hid

/-- The content `c` is that of the kind that the identifier `id` names. -/
theorem Reads.regular {id : Oid} {octets : Bytes} {c : Content} (h : Reads id octets c) :
    c.oid = id ∧ c.Regular := by
  cases h with
  | unrecognized h => exact ⟨rfl, fun _ => h⟩
  | _ => exact ⟨rfl, nofun⟩

/-- Where the kind of `c` is not known, the `octets` are kept. -/
theorem Reads.eq_unrecognized {id : Oid} {octets : Bytes} {c : Content} (h : Reads id octets c)
    (hkind : c.setName? = none) : c = Content.unrecognized id octets := by
  cases h with
  | unrecognized => rfl
  | _ => cases hkind

/-! ## Reading what was written -/

/-- What `read` gives for an element is what the content `f` is made of. -/
theorem decode_optionally {α : Type} {tag : UInt8} {content : Bytes} {read : Value → Except Error α}
    {f : Option α → Content} {a : α} (htag : Value.Short tag)
    (hlen : (Write.element tag content).length ≤ Limits.default.maxInput)
    (hread : read (Value.ofOctet tag content) = .ok a) :
    (do return f (← optionally (Write.element tag content) read)) = Except.ok (f (some a)) := by
  have hne : Write.element tag content ≠ [] := List.cons_ne_nil _ _
  rw [optionally, if_neg hne, decode_element htag hlen]
  show ((read (Value.ofOctet tag content) >>= fun a => .ok (some a)) >>= fun o => .ok (f o)) = _
  rw [hread]
  rfl

/-- The `bits` of a key usage are read back as far as they are set. -/
theorem decodeKeyUsage_namedBits {bits : List Bool}
    (hlen : (Write.namedBits (.ofBools bits)).length ≤ Limits.default.maxInput) :
    decodeKeyUsage (Write.namedBits (.ofBools bits)) = .ok (keyUsage (BitString.trim bits)) := by
  rw [Write.namedBits_ofBools, Write.bitString] at hlen ⊢
  generalize hv : Value.ofOctet Tag.bitString ((BitString.ofBools (BitString.trim bits)).unused ::
    (BitString.ofBools (BitString.trim bits)).octets) = v
  have hplain : v.is Tag.octetString = false := hv ▸ rfl
  have hread := Value.bitString_eq_ok.mpr hv.symm
  rw [decodeKeyUsage, decode_element (by decide) hlen, hv]
  show (if v.is Tag.octetString = true then _ else v.bitString >>= _) = _
  rw [hplain, hread]
  exact congrArg (Except.ok ∘ keyUsage) (BitString.toBools_ofBools _)

theorem flatMap_oid (purposes : List Oid) :
    purposes.flatMap Write.oid =
      Write.values (purposes.map fun id => Value.ofOctet Tag.oid id.content) := by
  rw [Write.values, List.flatMap_map]
  exact List.flatMap_congr fun id _ => (Value.octets_ofOctet (by decide) id.content).symm

/-- The `purposes` are read where their elements are in a SEQUENCE, and not too many. -/
theorem readPurposes_eq_ok {v : Value} {purposes : List Oid} :
    readPurposes v = .ok purposes ↔
      v = Value.ofOctet Tag.sequence (purposes.flatMap Write.oid) ∧
        (∀ id ∈ purposes, id.content.length < UInt32.size) ∧
        purposes.length ≤ Limits.default.maxElements := by
  have hread : ∀ vs : List Value, vs.mapM Value.oid = .ok purposes ↔
      vs = purposes.map fun id => Value.ofOctet Tag.oid id.content := by
    intro vs
    rw [mapM_eq_ok_of_forall (k := id) (P := fun _ => True) fun v _ id => by
      rw [Value.oid_eq_ok, and_true]; exact Iff.rfl, List.map_id]
    exact and_iff_left fun _ _ => trivial
  simp only [readPurposes, ite_error_eq_ok, bind_eq_ok, hread, Value.children_eq_ok]
  constructor
  · rintro ⟨his, _, ⟨-, hcontent, hframed, hcount⟩, rfl⟩
    rw [← flatMap_oid] at hcontent
    refine ⟨hcontent ▸ Value.is_iff.mp his, fun id hid => ?_, by rwa [List.length_map] at hcount⟩
    exact hframed _ (List.mem_map_of_mem hid)
  · rintro ⟨rfl, hframed, hcount⟩
    refine ⟨Value.is_ofOctet _ _, _, ⟨rfl, flatMap_oid purposes, ?_, by rwa [List.length_map]⟩, rfl⟩
    intro v hv
    obtain ⟨id, hid, rfl⟩ := List.mem_map.mp hv
    exact hframed id hid

/-! ### Periods -/

/-- The `content` of a GeneralizedTime is read as `t` to the whole second. -/
def Denotes (content : Bytes) (t : Time) : Prop :=
  Time.ofContent .generalized content = .ok t.wholeSecond

/-- The element of a bound under `tag`, if there is one. -/
def boundValues (tag : UInt8) (content : Option Bytes) : List Value :=
  content.toList.map (Value.ofOctet tag)

theorem exists_boundValues {tag : UInt8} {bound : Option Time} {b : Bytes} (htag : Value.Short tag)
    (h : boundOctets tag bound = .ok b) :
    ∃ content, Write.values (boundValues tag content) = b ∧ Option.Rel Denotes content bound := by
  cases bound with
  | none =>
    cases h
    exact ⟨none, rfl, .none⟩
  | some t =>
    simp only [boundOctets, Write.generalizedTime, bind_eq_ok, pure_eq_ok] at h
    obtain ⟨_, ⟨content, hcontent, rfl⟩, rfl⟩ := h
    refine ⟨some content, ?_, .some (Time.ofContent_generalizedContent hcontent)⟩
    exact (Write.values_cons _ []).trans
      ((List.append_nil _).trans (Value.octets_ofOctet htag content))

variable {content : Option Bytes} {before after : Option Time} {rest : List Value}

/-- The first bound, `before`, is taken from its element, if there is one. -/
theorem readBounds_before (h : Option.Rel Denotes content before) :
    readBounds none after (boundValues beforeTag content ++ rest) =
      readBounds (before.map Time.wholeSecond) after rest := by
  cases h with
  | none => rfl
  | @some content t h =>
    have hread : ((Value.ofOctet beforeTag content).retag Tag.generalizedTime).generalizedTime =
        .ok t.wholeSecond := Value.generalizedTime_eq_ok.mpr ⟨rfl, h⟩
    show readBounds none after (Value.ofOctet beforeTag content :: rest) = _
    rw [readBounds, Value.is_ofOctet, hread]
    rfl

/-- The second bound, `after`, is taken from its element, if there is one. -/
theorem readBounds_after (h : Option.Rel Denotes content after) :
    readBounds before none (boundValues afterTag content ++ rest) =
      readBounds before (after.map Time.wholeSecond) rest := by
  cases h with
  | none => rfl
  | @some content t h =>
    have hread : ((Value.ofOctet afterTag content).retag Tag.generalizedTime).generalizedTime =
        .ok t.wholeSecond := Value.generalizedTime_eq_ok.mpr ⟨rfl, h⟩
    have hother : (Value.ofOctet afterTag content).is beforeTag = false := rfl
    show readBounds before none (Value.ofOctet afterTag content :: rest) = _
    rw [readBounds, hother, Value.is_ofOctet, hread]
    rfl

theorem length_boundValues_le (tag : UInt8) (content : Option Bytes) :
    (boundValues tag content).length ≤ 1 := by
  cases content <;> simp [boundValues]

/-- A period from `before` to `after` is read back from the elements of its bounds. -/
theorem readPeriod_bounds {first second : Bytes} (hfirst : boundOctets beforeTag before = .ok first)
    (hsecond : boundOctets afterTag after = .ok second)
    (hlen : (first ++ second).length < UInt32.size) :
    readPeriod (Value.ofOctet Tag.sequence (first ++ second)) =
      .ok (before.map Time.wholeSecond, after.map Time.wholeSecond) := by
  obtain ⟨c₁, rfl, hbefore⟩ := exists_boundValues (by decide) hfirst
  obtain ⟨c₂, rfl, hafter⟩ := exists_boundValues (by decide) hsecond
  rw [← Write.values_append] at hlen ⊢
  have hcount : (boundValues beforeTag c₁ ++ boundValues afterTag c₂).length ≤
      Limits.default.maxElements := by
    have h₁ := length_boundValues_le beforeTag c₁
    have h₂ := length_boundValues_le afterTag c₂
    have hmax : 2 ≤ Limits.default.maxElements := by decide
    rw [List.length_append]
    omega
  simp only [readPeriod, ite_error_eq_ok, bind_eq_ok]
  refine ⟨Value.is_ofOctet _ _, _, Value.children_eq_ok.mpr ⟨rfl, rfl,
    Write.framed_of_values hlen, hcount⟩, ?_⟩
  rw [readBounds_before hbefore, ← List.append_nil (boundValues afterTag c₂),
    readBounds_after hafter, readBounds]

/-- A period with a bound, `before` or `after`, is written as a SEQUENCE. -/
theorem value_of_bound (h : ¬(before = none ∧ after = none)) :
    (privateKeyUsage before after).value = do
      let first ← boundOctets beforeTag before
      let second ← boundOctets afterTag after
      return Write.element Tag.sequence (first ++ second) := by
  rw [value]
  exact fun hbefore hafter => h ⟨hbefore, hafter⟩

/-- A period without bounds has an empty value `b`, any other one is a SEQUENCE of its bounds,
`first ++ second`. -/
theorem value_privateKeyUsage {b : Bytes} (h : (privateKeyUsage before after).value = .ok b) :
    (before = none ∧ after = none ∧ b = []) ∨
      ∃ first second, boundOctets beforeTag before = .ok first ∧
        boundOctets afterTag after = .ok second ∧
        Write.element Tag.sequence (first ++ second) = b := by
  by_cases hopen : before = none ∧ after = none
  · obtain ⟨rfl, rfl⟩ := hopen
    cases h
    exact .inl ⟨rfl, rfl, rfl⟩
  · simp only [value_of_bound hopen, bind_eq_ok, pure_eq_ok] at h
    obtain ⟨first, hfirst, second, hsecond, rfl⟩ := h
    exact .inr ⟨first, second, hfirst, hsecond, rfl⟩

/-- **What is written is read back.** The octets `b` of a content `c` are read as `c.canonical`,
without what is not written, under its identifier, where they are within the limits. -/
theorem decode_value {c : Content} {b : Bytes} (hc : c.Regular) (h : c.value = .ok b)
    (hlen : b.length ≤ Limits.default.maxInput)
    (hcount : ∀ purposes, c = extendedKeyUsage (some purposes) →
      purposes.length ≤ Limits.default.maxElements) :
    decode c.oid b = .ok c.canonical := by
  cases c with
  | keyUsage bits =>
    cases h
    exact decodeKeyUsage_namedBits hlen
  | subjectKeyIdentifier keyId =>
    cases keyId with
    | none => cases h; rfl
    | some keyId =>
      cases h
      exact decode_optionally (by decide) hlen (Value.octetString_eq_ok.mpr rfl)
  | extendedKeyUsage purposes =>
    match purposes with
    | none => cases h; rfl
    | some [] => cases h; rfl
    | some (p :: purposes) =>
      cases h
      have hframed := Write.framed_of_values (flatMap_oid _ ▸ Write.lt_size_of_element_le hlen)
      exact decode_optionally (by decide) hlen (readPurposes_eq_ok.mpr
        ⟨rfl, fun id hid => hframed _ (List.mem_map_of_mem hid), hcount _ rfl⟩)
  | privateKeyUsage before after =>
    obtain ⟨rfl, rfl, rfl⟩ | ⟨first, second, hfirst, hsecond, rfl⟩ := value_privateKeyUsage h
    · rfl
    · exact decode_optionally
        (f := fun o => privateKeyUsage (o.getD (none, none)).1 (o.getD (none, none)).2)
        (by decide) hlen (readPeriod_bounds hfirst hsecond (Write.lt_size_of_element_le hlen))
  | reasonCode code =>
    cases h
    obtain rfl | hcode := eq_or_ne code 0
    · rfl
    · rw [if_neg hcode] at hlen ⊢
      exact decode_optionally (f := fun o => reasonCode (o.getD 0)) (by decide) hlen
        (Value.enumerated_eq_ok.mpr rfl)
  | invalidityDate date =>
    cases date with
    | none => cases h; rfl
    | some date =>
      simp only [value, Write.generalizedTime, bind_eq_ok, pure_eq_ok] at h
      obtain ⟨content, hcontent, rfl⟩ := h
      exact decode_optionally (by decide) hlen (Value.generalizedTime_eq_ok.mpr
        ⟨rfl, Time.ofContent_generalizedContent hcontent⟩)
  | deltaCrlIndicator base =>
    cases base with
    | none => cases h; rfl
    | some base =>
      cases h
      exact decode_optionally (by decide) hlen (Value.integer_eq_ok.mpr rfl)
  | ocspNoCheck =>
    cases h
    rfl
  | unrecognized id octets =>
    cases h
    exact decode_of_notMem (hc rfl) _

end Content

end Pkix
