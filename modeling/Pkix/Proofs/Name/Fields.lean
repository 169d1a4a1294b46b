import Pkix.Proofs.Name.Encoding
import Pkix.Proofs.Name.Rfc4514

/-!
# Names that are made from fields

* `NameFields.ofString_escape`: a field is escaped octet by octet.
* `NameFields.parse_text`: the string form of fields is read as their relative names unless a
  backslash stands right before a separator in one of them; then it is not read at all.
* `NameFields.ofName_relativeNames`: the fields are picked out of their relative names.
* `NameFields.name_reads_back_if_separable`: the three together.
-/

namespace Pkix

open Der

/-! ## Fields as text -/

namespace NameFields

open Rfc4514 (escaped escapedText marked)

/-- Characters `c` and octets of ASCII need backslashes alike. -/
theorem special_eq_marked {c : Char} (h : c.toNat < 128) :
    special c = marked (UInt8.ofNat c.toNat) := by
  have hall : ∀ n : Fin 128, special (Char.ofNat n) = marked (UInt8.ofNat n) := by
    decide +kernel
  have hc := hall ⟨c.toNat, h⟩
  rwa [Char.ofNat_toNat] at hc

theorem special_lt {c : Char} (h : special c = true) : c.toNat < 128 := by
  simp only [special, List.contains_iff_mem, List.mem_cons, List.not_mem_nil, or_false] at h
  rcases h with rfl | rfl | rfl | rfl | rfl | rfl | rfl | rfl <;> decide

theorem not_marked_of_le {x : UInt8} (h : 128 ≤ x.toNat) : marked x = false := by
  rw [← Bool.not_eq_true]
  intro hx
  simp only [marked, List.contains_iff_mem, List.mem_cons, List.not_mem_nil, or_false] at hx
  rcases hx with rfl | rfl | rfl | rfl | rfl | rfl | rfl | rfl <;> exact absurd h (by decide)

theorem escaped_append (a b : Bytes) : escaped (a ++ b) = escaped a ++ escaped b :=
  List.flatMap_append

theorem escaped_eq_self {b : Bytes} (h : ∀ x ∈ b, marked x = false) : escaped b = b := by
  induction b with
  | nil => rfl
  | cons x b ih =>
    obtain ⟨hx, hb⟩ := List.forall_mem_cons.mp h
    rw [Rfc4514.escaped_cons_of_not_marked hx, ih hb]

/-- A character `c` is escaped as its octets are. -/
theorem flatMap_escape (c : Char) :
    (if special c then ['\\', c] else [c]).flatMap String.utf8EncodeChar =
      escaped (String.utf8EncodeChar c) := by
  by_cases hc : c.toNat < 128
  · rw [Bytes.utf8EncodeChar_of_lt hc, special_eq_marked hc]
    cases hmarked : marked (UInt8.ofNat c.toNat) with
    | true =>
      rw [Rfc4514.escaped_cons_of_marked hmarked]
      show String.utf8EncodeChar '\\' ++ (String.utf8EncodeChar c ++ []) = _
      rw [Bytes.utf8EncodeChar_of_lt hc, Bytes.utf8EncodeChar_of_lt (by decide)]
      rfl
    | false =>
      rw [Rfc4514.escaped_cons_of_not_marked hmarked]
      show String.utf8EncodeChar c ++ [] = _
      rw [Bytes.utf8EncodeChar_of_lt hc]
      rfl
  · have hspecial : special c = false := by
      rw [← Bool.not_eq_true]
      exact fun h => hc (special_lt h)
    have hplain : escaped (String.utf8EncodeChar c) = String.utf8EncodeChar c :=
      escaped_eq_self fun x hx => not_marked_of_le (Bytes.le_of_mem_utf8EncodeChar hc x hx)
    rw [hspecial, hplain]
    exact List.append_nil _

theorem flatMap_flatMap_escape (cs : List Char) :
    (cs.flatMap fun c => if special c then ['\\', c] else [c]).flatMap String.utf8EncodeChar =
      escaped (cs.flatMap String.utf8EncodeChar) := by
  induction cs with
  | nil => rfl
  | cons c cs ih =>
    rw [List.flatMap_cons, List.flatMap_append, ih, flatMap_escape, List.flatMap_cons,
      escaped_append]

/-- A field `s` is escaped octet by octet. -/
theorem ofString_escape (s : String) :
    Bytes.ofString (escape s) = escapedText (Bytes.ofString s) := by
  have hsharp := Bytes.head?_ofString (s := s) (a := '#') (by decide)
  have hspace := Bytes.head?_ofString (s := s) (a := ' ') (by decide)
  rw [escape, Bytes.ofString_ofList, List.flatMap_append, flatMap_flatMap_escape,
    ← Bytes.ofString_eq_flatMap, escapedText]
  split
  · rename_i cs hcs
    rw [if_pos (.inl (hsharp.mpr (by rw [hcs]; rfl)))]
    rfl
  · rename_i cs hcs
    rw [if_pos (.inr (hspace.mpr (by rw [hcs]; rfl)))]
    rfl
  · rename_i hnosharp hnospace
    refine (if_neg ?_).symm
    rintro (h | h)
    · obtain ⟨cs, hcs⟩ := List.head?_eq_some_iff.mp (hsharp.mp h)
      exact hnosharp cs hcs
    · obtain ⟨cs, hcs⟩ := List.head?_eq_some_iff.mp (hspace.mp h)
      exact hnospace cs hcs

/-! ## Fields and their attributes -/

/-- The short name of an attribute: `key` stands for `type` in the string form. -/
structure ShortName where
  key : String
  type : Oid
  known : Rfc4514.type? key = some type
  /-- The `key` can be told from what is around it. -/
  plain : 0x2C ∉ Bytes.ofString key ∧ 0x2B ∉ Bytes.ofString key ∧ 0x3D ∉ Bytes.ofString key

/-- The fields of `f` in the order of the string form. -/
def fields (f : NameFields) : List (ShortName × Option String) := [
  (⟨"CN", Oid.commonName, rfl, by decide⟩, some f.commonName),
  (⟨"OU", Oid.organizationalUnit, rfl, by decide⟩, f.organizationalUnit),
  (⟨"O", Oid.organization, rfl, by decide⟩, f.organization),
  (⟨"L", Oid.locality, rfl, by decide⟩, f.locality),
  (⟨"ST", Oid.state, rfl, by decide⟩, f.state),
  (⟨"C", Oid.country, rfl, by decide⟩, f.country)]

/-- A `field` with its text, if it is set. -/
def given? (field : ShortName × Option String) : Option (ShortName × String) :=
  field.2.map (field.1, ·)

/-- The fields of `f` that are set. -/
def entries (f : NameFields) : List (ShortName × String) := f.fields.filterMap given?

/-- What a field that is set, `entry`, asserts. -/
def assertion (entry : ShortName × String) : Assertion :=
  ⟨entry.1.type, Rfc4514.textValue entry.1.type (Bytes.ofString entry.2)⟩

/-- A relative name for every field of `f` that is set, the most general first. -/
def relativeNames (f : NameFields) : List RelativeName :=
  (f.entries.map fun entry => ⟨[assertion entry]⟩).reverse

/-- No backslash of a field of `f` stands right before a separator. -/
def Separable (f : NameFields) : Prop :=
  ∀ entry ∈ f.entries,
    ¬['\\', ','] <:+: entry.2.toList ∧ ¬['\\', '+'] <:+: entry.2.toList

instance (f : NameFields) : Decidable f.Separable :=
  inferInstanceAs (Decidable (∀ entry ∈ f.entries, _))

/-- The octets of a field, `entry`, in the string form. -/
def segment (entry : ShortName × String) : Bytes :=
  Bytes.ofString entry.1.key ++ 0x3D :: escapedText (Bytes.ofString entry.2)

theorem text_eq (f : NameFields) :
    f.text = ",".intercalate (f.entries.map fun entry => entry.1.key ++ "=" ++ escape entry.2) := by
  show ",".intercalate ((f.fields.map fun field => (field.1.key, field.2)).filterMap
    fun field => field.2.map (field.1 ++ "=" ++ escape ·)) = _
  rw [List.filterMap_map, entries, List.map_filterMap]
  congr 2
  funext field
  rw [given?, Option.map_map]
  rfl

theorem ofString_intercalate (ss : List String) :
    Bytes.ofString (",".intercalate ss) = [0x2C].intercalate (ss.map Bytes.ofString) := by
  induction ss with
  | nil => rfl
  | cons s ss ih =>
    cases ss with
    | nil => rw [String.intercalate_singleton, List.map_singleton, List.intercalate_singleton]
    | cons t ss =>
      rw [String.intercalate_cons_cons, Bytes.ofString_append, Bytes.ofString_append, ih]
      simp only [List.map_cons, List.intercalate_cons_cons]
      rfl

theorem ofString_text (f : NameFields) :
    Bytes.ofString f.text = [0x2C].intercalate (f.entries.map segment) := by
  rw [text_eq, ofString_intercalate, List.map_map]
  congr 2
  funext entry
  rw [Function.comp_apply, Bytes.ofString_append, Bytes.ofString_append, ofString_escape, segment,
    List.append_assoc]
  rfl

/-! ## The string form is read -/

theorem backslash_comma_iff {s : String} :
    [0x5C, 0x2C] <:+: Bytes.ofString s ↔ ['\\', ','] <:+: s.toList :=
  Bytes.pair_infix_ofString (a := '\\') (b := ',') (by decide) (by decide)

theorem backslash_plus_iff {s : String} :
    [0x5C, 0x2B] <:+: Bytes.ofString s ↔ ['\\', '+'] <:+: s.toList :=
  Bytes.pair_infix_ofString (a := '\\') (b := '+') (by decide) (by decide)

variable {f : NameFields} {entry : ShortName × String}

theorem assertion?_segment (entry : ShortName × String) :
    Rfc4514.assertion? (segment entry) = some (assertion entry) :=
  Rfc4514.assertion?_text entry.1.plain.2.2 entry.1.known _

/-- A field `entry` without a backslash before a plus sign is read as one assertion. -/
theorem mapM_segment (h : ¬['\\', '+'] <:+: entry.2.toList) :
    (Rfc4514.split 0x2B (segment entry)).mapM Rfc4514.assertion? = some [assertion entry] := by
  have hpasses : Rfc4514.Passes 0x2B (segment entry) :=
    Rfc4514.passes_text (.inr rfl) entry.1.plain.2.1 (backslash_plus_iff.not.mpr h)
  have hsplit : Rfc4514.split 0x2B ([0x2B].intercalate [segment entry]) = [segment entry] :=
    Rfc4514.split_intercalate (by simp) (by simpa)
  rw [List.intercalate_singleton] at hsplit
  rw [hsplit, List.mapM_cons, assertion?_segment]
  rfl

theorem mapM_segment_eq_none (h : ['\\', '+'] <:+: entry.2.toList) :
    (Rfc4514.split 0x2B (segment entry)).mapM Rfc4514.assertion? = none := by
  have hbreaks : Rfc4514.Breaks 0x2B (segment entry) :=
    Rfc4514.breaks_text (.inr rfl) entry.1.plain.2.1 (backslash_plus_iff.mpr h)
  obtain ⟨p, hp, hheadless⟩ :=
    Rfc4514.exists_headless_split (List.mem_singleton.mpr rfl) hbreaks
  rw [List.intercalate_singleton] at hp
  exact Rfc4514.mapM_eq_none_of_mem hp (Rfc4514.assertion?_headless hheadless)

/-- A piece `p` without a key is not a relative name. -/
theorem mapM_headless {p : Bytes} (h : Rfc4514.Headless p) :
    (Rfc4514.split 0x2B p).mapM Rfc4514.assertion? = none := by
  obtain ⟨q, ps, hsplit, hq⟩ := Rfc4514.first_splitFrom 0x2B [] 0 0 p
  have hmem : q ∈ Rfc4514.split 0x2B p := by
    rw [Rfc4514.split, hsplit]
    exact List.mem_cons_self
  exact Rfc4514.mapM_eq_none_of_mem hmem (Rfc4514.assertion?_headless (h.of_isPrefix hq))

theorem entries_ne_nil (f : NameFields) : f.entries ≠ [] := List.cons_ne_nil _ _

/-- The pieces of `f.text` are the fields, or there is one that cannot be read. -/
theorem mapM_split_text (f : NameFields) :
    ((Rfc4514.split 0x2C (Bytes.ofString f.text)).mapM fun piece =>
        (Rfc4514.split 0x2B piece).mapM Rfc4514.assertion?) =
      if f.Separable then some (f.entries.map fun entry => [assertion entry]) else none := by
  rw [ofString_text]
  -- A comma that is wrongly taken for a separator spoils the piece after it. Where there is none,
  -- the pieces are the fields, and a plus sign may spoil one of these in turn.
  by_cases hcomma : ∃ entry ∈ f.entries, ['\\', ','] <:+: entry.2.toList
  · obtain ⟨entry, hentry, h⟩ := hcomma
    have hbreaks : Rfc4514.Breaks 0x2C (segment entry) :=
      Rfc4514.breaks_text (.inl rfl) entry.1.plain.1 (backslash_comma_iff.mpr h)
    obtain ⟨p, hp, hheadless⟩ :=
      Rfc4514.exists_headless_split (List.mem_map_of_mem (f := segment) hentry) hbreaks
    rw [if_neg fun hseparable => (hseparable entry hentry).1 h]
    exact Rfc4514.mapM_eq_none_of_mem hp (mapM_headless hheadless)
  · have hpasses : ∀ w ∈ f.entries.map segment, Rfc4514.Passes 0x2C w := by
      intro w hw
      obtain ⟨entry, hentry, rfl⟩ := List.mem_map.mp hw
      refine Rfc4514.passes_text (.inl rfl) entry.1.plain.1 (backslash_comma_iff.not.mpr ?_)
      exact fun h => hcomma ⟨entry, hentry, h⟩
    rw [Rfc4514.split_intercalate (by simpa using entries_ne_nil f) hpasses]
    by_cases hplus : ∃ entry ∈ f.entries, ['\\', '+'] <:+: entry.2.toList
    · obtain ⟨entry, hentry, h⟩ := hplus
      rw [if_neg fun hseparable => (hseparable entry hentry).2 h]
      exact Rfc4514.mapM_eq_none_of_mem (List.mem_map_of_mem hentry) (mapM_segment_eq_none h)
    · have hseparable : f.Separable := fun entry hentry =>
        ⟨fun h => hcomma ⟨entry, hentry, h⟩, fun h => hplus ⟨entry, hentry, h⟩⟩
      rw [if_pos hseparable, List.mapM_map]
      exact mapM_eq_some_map fun entry hentry => mapM_segment (hseparable entry hentry).2

/-- `f.text` is read as `f.relativeNames` unless a backslash stands right before a separator
(`Separable`); then it is not read at all. -/
theorem parse_text (f : NameFields) :
    Rfc4514.parse f.text =
      if f.Separable then .ok f.relativeNames else .error (.invalidInput .nameText) := by
  rw [Rfc4514.parse, mapM_split_text]
  by_cases h : f.Separable
  · rw [if_pos h, if_pos h, relativeNames]
    simp only [List.map_map]
    rfl
  · rw [if_neg h, if_neg h]

/-! ## The fields of a name -/

theorem text_textValue (type : Oid) (s : String) :
    (Rfc4514.textValue type (Bytes.ofString s)).text = .ok s := by
  have hcharset : (Rfc4514.textValue type (Bytes.ofString s)).tag.charset? = some .utf8 := by
    rw [Rfc4514.textValue]
    split <;> rfl
  have hdecode :
      Charset.utf8.decode? (Rfc4514.textValue type (Bytes.ofString s)).content = some s :=
    Bytes.toString?_ofString s
  rw [Value.text, hcharset]
  simp only [hdecode]

/-- Where no attribute has two of the `fields`, the entry of an attribute is the field that is
set. -/
theorem find?_filterMap {fields : List (ShortName × Option String)}
    (h : (fields.map (·.1.type)).Nodup) (type : Oid) :
    ((fields.filterMap given?).find? (·.1.type == type)).map (·.2) =
      (fields.find? (·.1.type == type)).bind (·.2) := by
  induction fields with
  | nil => rfl
  | cons field fields ih =>
    obtain ⟨name, value⟩ := field
    obtain ⟨hname, hnodup⟩ := List.nodup_cons.mp h
    have hrest := ih hnodup
    by_cases htype : name.type = type
    · rw [List.find?_cons_of_pos (by simpa using htype)]
      cases value with
      | some s =>
        have hcons : ((name, some s) :: fields).filterMap given? =
            (name, s) :: fields.filterMap given? := rfl
        rw [hcons, List.find?_cons_of_pos (by simpa using htype)]
        rfl
      | none =>
        have hnone : fields.find? (·.1.type == type) = none := by
          refine List.find?_eq_none.mpr fun field hfield heq => hname ?_
          exact List.mem_map.mpr ⟨field, hfield, (beq_iff_eq.mp heq).trans htype.symm⟩
        rw [List.filterMap_cons_none rfl, hrest, hnone]
        rfl
    · rw [List.find?_cons_of_neg (by simpa using htype), ← hrest]
      cases value with
      | some s =>
        have hcons : ((name, some s) :: fields).filterMap given? =
            (name, s) :: fields.filterMap given? := rfl
        rw [hcons, List.find?_cons_of_neg (by simpa using htype)]
      | none => rw [List.filterMap_cons_none rfl]

theorem attribute?_relativeNames (f : NameFields) (octets : Bytes) (type : Oid) :
    (Name.mk f.relativeNames octets).attribute? type =
      (f.fields.find? (·.1.type == type)).bind (·.2) := by
  have hnodup : (f.fields.map (·.1.type)).Nodup :=
    (by decide : [Oid.commonName, Oid.organizationalUnit, Oid.organization, Oid.locality, Oid.state,
      Oid.country].Nodup)
  have hby : (Name.mk f.relativeNames octets).bySpecificity = f.entries.map assertion := by
    rw [Name.bySpecificity, relativeNames, List.reverse_reverse, List.flatMap_map,
      ← List.flatMap_pure_eq_map]
    rfl
  rw [Name.attribute?, hby, List.find?_map, ← find?_filterMap hnodup]
  have hentry : f.entries.find? ((·.type == type) ∘ assertion) =
      (f.fields.filterMap given?).find? (·.1.type == type) := rfl
  rw [hentry]
  cases (f.fields.filterMap given?).find? (·.1.type == type) with
  | none => rfl
  | some entry =>
    show (assertion entry).value.text.toOption = _
    rw [assertion, text_textValue]
    rfl

/-- The fields `f` are picked out of `f.relativeNames`. -/
theorem ofName_relativeNames (f : NameFields) (octets : Bytes) :
    ofName ⟨f.relativeNames, octets⟩ = f := by
  simp only [ofName, Name.commonName?, attribute?_relativeNames]
  rfl

theorem length_entries_le (f : NameFields) : f.entries.length ≤ Limits.default.maxElements :=
  Nat.le_trans (List.length_filterMap_le _ _) (by decide : 6 ≤ 65536)

theorem relativeNames_eq (f : NameFields) :
    f.relativeNames = (f.entries.map assertion).reverse.map RelativeName.single := by
  rw [relativeNames, List.map_reverse, List.map_map]
  rfl

/-- **Names of fields.** Fields `f` make the name with one relative name for each of them, and are
picked out of it as they were. They make no name only if a backslash stands right before a separator
in one of them (`Separable`), or if the name is longer than what is decoded. -/
theorem name_reads_back_if_separable (f : NameFields) :
    Rfc4514.parse f.text =
        (if f.Separable then .ok f.relativeNames else .error (.invalidInput .nameText)) ∧
      f.name =
        (if f.Separable then do
          Limits.default.check (Name.encode f.relativeNames)
          return ⟨f.relativeNames, Name.encode f.relativeNames⟩
        else .error (.invalidInput .nameText)) ∧
      ∀ octets, ofName ⟨f.relativeNames, octets⟩ = f := by
  refine ⟨parse_text f, ?_, ofName_relativeNames f⟩
  rw [name, parse_text]
  by_cases h : f.Separable
  · rw [if_pos h, if_pos h]
    show Name.ofRelativeNames f.relativeNames = _
    rw [relativeNames_eq, Name.ofRelativeNames_single]
    rw [List.length_reverse, List.length_map]
    exact length_entries_le f
  · rw [if_neg h, if_neg h]
    rfl

/-- `name` at a common name of a backslash and a comma, which makes none. -/
theorem name_of_backslash_comma :
    name ⟨"\\,", none, none, none, none, none⟩ = .error (.invalidInput .nameText) := by
  rw [name, parse_text, if_neg (by decide)]
  rfl

example : Separable ⟨"a\\", some "\\=,", none, none, some "#,+", none⟩ := by decide

end NameFields

end Pkix
