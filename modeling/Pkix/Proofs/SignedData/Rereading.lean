import Mathlib.Data.List.Nodup
import Pkix.Proofs.Der.SetOrder
import Pkix.Proofs.SignedData.Signer

/-!
# Reading what was written for attributes and signers

A signer that was made from its parts is not always the one that is read from its encoding: sets of
attributes are written in canonical order. What a signature is checked with stays the same, but for
the first value of an attribute.

* `AttributeSet.attributes_of_new`: a set that was made is read with attributes and values in
  canonical order; `AttributeSet.eq_of_ofValue`: one that was read does not change.
* `AttributeSet.first?_of_ofValue`: which first values of attributes stay the same.
* `Signer.alike_of_ofValue`: the other parts of a signer stay the same; `Signer.Alike.eq`: so does
  the whole signer if it was read.
-/

namespace Pkix

open Der

/-! ## Limits only refuse -/

variable {limits limits' : Limits} {v : Value}

theorem Der.Value.children_unique {vs ws : List Value} (hvs : v.children limits = .ok vs)
    (hws : v.children limits' = .ok ws) : vs = ws := by
  obtain ⟨-, hvs, hframed, -⟩ := Value.children_eq_ok.mp hvs
  obtain ⟨-, hws, hframed', -⟩ := Value.children_eq_ok.mp hws
  exact Write.values_inj hframed hframed' (hvs.symm.trans hws)

theorem RelativeName.ofValue_unique {m n : RelativeName} (hm : ofValue limits v = .ok m)
    (hn : ofValue limits' v = .ok n) : m = n := by
  simp only [ofValue, ite_error_eq_ok, error_ite_eq_ok, bind_eq_ok, pure_eq_ok] at hm hn
  obtain ⟨-, vs, hvs, as, has, -, rfl⟩ := hm
  obtain ⟨-, ws, hws, bs, hbs, -, rfl⟩ := hn
  obtain rfl := Value.children_unique hvs hws
  rw [has] at hbs
  cases hbs
  rfl

theorem Name.ofValue_unique {m n : Name} (hm : ofValue limits v = .ok m)
    (hn : ofValue limits' v = .ok n) : m = n := by
  simp only [ofValue, ite_error_eq_ok, bind_eq_ok, pure_eq_ok] at hm hn
  obtain ⟨-, vs, hvs, as, has, rfl⟩ := hm
  obtain ⟨-, ws, hws, bs, hbs, rfl⟩ := hn
  obtain rfl := Value.children_unique hvs hws
  rw [mapM_unique (fun _ _ _ _ => RelativeName.ofValue_unique) has hbs]

/-! ## Attributes -/

namespace Attribute

/-- The value that an attribute `a` is written as. -/
def value (a : Attribute) : Value :=
  Value.ofOctet Tag.sequence (Write.oid a.id ++ Write.setOf Tag.set (a.values.map Value.octets))

theorem octets_value (a : Attribute) : a.value.octets = a.octets :=
  Value.octets_ofOctet (by decide) _

/-- The attribute `a` with its values in canonical order. -/
def canonical (a : Attribute) : Attribute := ⟨a.id, SetOrder.sortBy Value.octets a.values⟩

@[simp]
theorem id_canonical (a : Attribute) : a.canonical.id = a.id := rfl

theorem value_eq (a : Attribute) : a.value = Value.ofOctet Tag.sequence
    (Write.oid a.id ++ Write.element Tag.set (Write.values (a.canonical.values))) := by
  rw [value, Write.setOf, ← SetOrder.map_sortBy]
  rfl

/-- An element `v` is read as an attribute `a` if it holds `a.id` and a set of values. -/
theorem ofValue_eq_ok {a : Attribute} (hv : v.Framed) :
    ofValue limits v = .ok a ↔
      v = Value.ofOctet Tag.sequence
        (Write.oid a.id ++ Write.element Tag.set (Write.values a.values)) ∧
      a.values ≠ [] ∧ a.values.length ≤ limits.maxElements := by
  simp only [ofValue, ite_error_eq_ok, error_ite_eq_ok, bind_eq_ok, pure_eq_ok, Prod.exists,
    Value.cursor, Cursor.oid_eq_ok, Cursor.setOf_eq_ok, Cursor.finish_eq_ok, List.isEmpty_iff]
  constructor
  · rintro ⟨hseq, id, c₁, ⟨hid, -⟩, values, c₂, ⟨hvalues, -, hcount⟩, -, hrest, hne, rfl⟩
    refine ⟨?_, hne, by rwa [hid.limits] at hcount⟩
    have hcontent := hid.rest
    rw [hvalues.rest, hrest, List.append_nil, Cursor.rest_ofBuffer] at hcontent
    rw [Value.is_iff.mp hseq, hcontent]
  · rintro ⟨rfl, hne, hcount⟩
    have hlen : (Write.oid a.id ++ Write.element Tag.set (Write.values a.values)).length <
      UInt32.size := hv
    simp only [Write.oid, Write.element, List.length_append, List.length_cons] at hlen
    obtain ⟨c₁, hid, hrest₁, hlimits⟩ := Cursor.exists_step (Cursor.rest_ofBuffer
      (Write.oid a.id ++ Write.element Tag.set (Write.values a.values)) limits)
    obtain ⟨c₂, hvalues, hrest₂, -⟩ := Cursor.exists_step (hrest₁.trans (List.append_nil _).symm)
    rw [Cursor.limits_ofBuffer] at hlimits
    rw [← hlimits] at hcount
    exact ⟨Value.is_ofOctet _ _, a.id, c₁, ⟨hid, by omega⟩, a.values, c₂,
      ⟨hvalues, by omega, hcount⟩, (), hrest₂, hne, rfl⟩

/-- The fields of attributes `a` and `b` can be told from their octets. -/
theorem fields_inj {a b : Attribute}
    (hlen : (Write.oid a.id ++ Write.element Tag.set (Write.values a.values)).length < UInt32.size)
    (h : Write.oid a.id ++ Write.element Tag.set (Write.values a.values) =
      Write.oid b.id ++ Write.element Tag.set (Write.values b.values)) : a = b := by
  obtain ⟨hid, hset⟩ := Write.element_append_inj_of_length (by decide) hlen h
  have hlen := (Write.length_lt_of_element_append hlen).2
  have hvalues := Write.element_inj (by decide) hlen hset
  have hframed {vs : List Value} (h : (Write.element Tag.set (Write.values vs)).length <
      UInt32.size) : ∀ v ∈ vs, v.Framed := by
    simp only [Write.element, List.length_cons, List.length_append] at h
    exact Write.framed_of_values (by omega)
  have := Write.values_inj (hframed hlen) (hframed (hset ▸ hlen)) hvalues
  obtain ⟨id, values⟩ := a
  obtain ⟨id', values'⟩ := b
  rw [Oid.content_inj] at hid
  subst hid this
  rfl

theorem ofValue_unique {a b : Attribute} (hv : v.Framed) (ha : ofValue limits v = .ok a)
    (hb : ofValue limits' v = .ok b) : a = b := by
  obtain ⟨rfl, -, -⟩ := (ofValue_eq_ok hv).mp ha
  obtain ⟨h, -, -⟩ := (ofValue_eq_ok hv).mp hb
  exact fields_inj hv (congrArg Value.content h)

/-- What was written for an attribute `a` is read as `a.canonical`. -/
theorem eq_canonical_of_ofValue {a b : Attribute} (hv : a.value.Framed)
    (h : ofValue limits a.value = .ok b) : b = a.canonical := by
  obtain ⟨h, -, -⟩ := (ofValue_eq_ok hv).mp h
  rw [value_eq] at h hv
  exact (fields_inj (a := a.canonical) hv (congrArg Value.content h)).symm

/-- No attribute is repeated where all identifiers are different, also from those `seen`. -/
theorem repeatedFrom_eq_none {seen : List Oid} {as : List Attribute} :
    repeatedFrom seen as = none ↔ (as.map id).Nodup ∧ ∀ a ∈ as, a.id ∉ seen := by
  induction as generalizing seen with
  | nil => simp [repeatedFrom]
  | cons a as ih =>
    rw [repeatedFrom]
    split
    · rename_i hseen
      have : a.id ∈ seen := by simpa using hseen
      simp [this]
    · rename_i hseen
      have : a.id ∉ seen := by simpa using hseen
      rw [ih]
      simp only [List.map_cons, List.nodup_cons, List.mem_map, List.mem_cons, not_or]
      constructor
      · rintro ⟨hnodup, hall⟩
        refine ⟨⟨?_, hnodup⟩, ?_⟩
        · rintro ⟨b, hb, hid⟩
          exact (hall b hb).1 hid
        · rintro b (rfl | hb)
          · exact this
          · exact (hall b hb).2
      · rintro ⟨⟨hid, hnodup⟩, hall⟩
        exact ⟨hnodup, fun b hb => ⟨fun h => hid ⟨b, hb, h⟩, hall b (.inr hb)⟩⟩

theorem repeated?_eq_none {as : List Attribute} :
    repeated? as = none ↔ (as.map id).Nodup := by
  simp [repeated?, repeatedFrom_eq_none]

/-- The first identifier `i` that is repeated: it was `seen` or an earlier attribute (in `front`)
has it, and none of those earlier attributes is a repetition. -/
theorem repeatedFrom_eq_some {seen : List Oid} {as : List Attribute} {i : Oid} :
    repeatedFrom seen as = some i ↔ ∃ front a back, as = front ++ a :: back ∧
      repeatedFrom seen front = none ∧ a.id = i ∧ (i ∈ seen ∨ i ∈ front.map id) := by
  induction as generalizing seen with
  | nil => simp [repeatedFrom]
  | cons a as ih =>
    rw [repeatedFrom]
    by_cases hseen : seen.contains a.id = true
    · rw [if_pos hseen, Option.some_inj]
      constructor
      · rintro rfl
        exact ⟨[], a, as, rfl, rfl, rfl, .inl (by simpa using hseen)⟩
      · rintro ⟨front, b, back, h, hnone, rfl, -⟩
        cases front with
        | nil =>
          cases h
          rfl
        | cons c front =>
          cases h
          rw [repeatedFrom, if_pos hseen] at hnone
          cases hnone
    · rw [if_neg hseen, ih]
      constructor
      · rintro ⟨front, b, back, rfl, hnone, hid, hrepeated⟩
        refine ⟨a :: front, b, back, rfl, by rwa [repeatedFrom, if_neg hseen], hid, ?_⟩
        rw [List.mem_cons] at hrepeated
        rw [List.map_cons, List.mem_cons]
        tauto
      · rintro ⟨front, b, back, h, hnone, rfl, hrepeated⟩
        cases front with
        | nil =>
          cases h
          exact absurd (by simpa using hrepeated) hseen
        | cons c front =>
          cases h
          rw [repeatedFrom, if_neg hseen] at hnone
          rw [List.map_cons, List.mem_cons] at hrepeated
          refine ⟨front, b, back, rfl, hnone, rfl, ?_⟩
          rw [List.mem_cons]
          tauto

/-- **Repeated attributes.** The identifier `i` that is named is the first one that an earlier
attribute, one in `front`, has too. -/
theorem repeated?_eq_some {as : List Attribute} {i : Oid} :
    repeated? as = some i ↔ ∃ front a back, as = front ++ a :: back ∧ (front.map id).Nodup ∧
      a.id = i ∧ i ∈ front.map id := by
  simp [repeated?, repeatedFrom_eq_some, repeatedFrom_eq_none]

end Attribute

/-! ## Sets of attributes -/

/-- Where at most one element can be found by `p`, the order does not matter. -/
theorem find?_perm {α : Type} {xs ys : List α} {p : α → Bool} (h : xs.Perm ys)
    (hp : ∀ x ∈ xs, ∀ y ∈ xs, p x = true → p y = true → x = y) : xs.find? p = ys.find? p := by
  cases hx : xs.find? p with
  | none =>
    rw [List.find?_eq_none] at hx
    exact (List.find?_eq_none.mpr fun y hy => hx y (h.mem_iff.mpr hy)).symm
  | some x =>
    have hmem := List.mem_of_find?_eq_some hx
    have hpx := List.find?_some hx
    cases hy : ys.find? p with
    | none =>
      rw [List.find?_eq_none] at hy
      exact absurd hpx (hy x (h.mem_iff.mp hmem))
    | some y =>
      have hmem' := h.mem_iff.mpr (List.mem_of_find?_eq_some hy)
      rw [hp x hmem y hmem' hpx (List.find?_some hy)]

namespace AttributeSet

/-- The first value of the attribute with an identifier `id`. -/
def first? (s : AttributeSet) (id : Oid) : Option Value := (s.get? id).bind (·.values.head?)

variable {s t : AttributeSet} {w : Value}

theorem single_congr {α : Type} {id : Oid} (h : t.first? id = s.first? id)
    (read : Value → Except Error α) : t.single id read = s.single id read := by
  unfold first? at h
  rw [single, single, h]

/-- A set `s` that was read does not change when its encoding is read again, as `t`. -/
theorem eq_of_ofValue (hs : ofValue limits v = .ok s) (ht : ofValue limits' w = .ok t)
    (hlen : s.encoded.length < UInt32.size) (h : t.encoded = s.encoded) : t = s := by
  obtain ⟨⟨vs, hvs, has⟩, hse⟩ := ofValue_eq_ok.mp hs
  obtain ⟨⟨ws, hws, hbs⟩, hte⟩ := ofValue_eq_ok.mp ht
  rw [hse, hte] at h
  rw [hse, ← h] at hlen
  have hcontent := Write.element_inj (by decide) hlen h
  have hretag : w.retag Tag.set = v.retag Tag.set := by rw [Value.retag, hcontent]; rfl
  rw [hretag] at hws
  obtain rfl := Value.children_unique hvs hws
  obtain ⟨-, -, hframed, -⟩ := Value.children_eq_ok.mp hvs
  have hattributes : s.attributes = t.attributes :=
    mapM_unique (fun x hx _ _ => Attribute.ofValue_unique (hframed x hx)) has hbs
  obtain ⟨as, _, _⟩ := s
  obtain ⟨bs, _, _⟩ := t
  cases hattributes
  cases hse
  cases hte
  simp only [mk.injEq, true_and]
  rw [hcontent]

/-- A set made by `new` is written as its attributes, and the values of each, in canonical order. -/
theorem encoded_of_new {as : List Attribute} (hs : new as = .ok s) :
    s.encoded = Write.element Tag.set
      (Write.values ((SetOrder.sortBy Attribute.octets s.attributes).map Attribute.value)) := by
  obtain ⟨rfl, hse⟩ := new_eq_ok.mp hs
  rw [hse]
  refine Write.setOf_eq Tag.set ?_
  rw [List.map_map]
  exact List.map_congr_left fun a _ => a.octets_value.symm

/-- A set `s` made by `new` is read, as `t`, with its attributes, and the values of each, in
canonical order. -/
theorem attributes_of_new {as : List Attribute} (hs : new as = .ok s)
    (ht : ofValue limits w = .ok t) (hlen : s.encoded.length < UInt32.size)
    (h : t.encoded = s.encoded) :
    t.attributes = (SetOrder.sortBy Attribute.octets s.attributes).map Attribute.canonical := by
  have hse := encoded_of_new hs
  obtain ⟨⟨ws, hws, hbs⟩, hte⟩ := ofValue_eq_ok.mp ht
  rw [hte, hse] at h
  rw [hse, ← h] at hlen
  have hcontent := Write.element_inj (by decide) hlen h
  obtain ⟨-, hwc, hwf, -⟩ := Value.children_eq_ok.mp hws
  have hwc : w.content = Write.values ws := hwc
  rw [hwc, Write.element, List.length_cons, List.length_append] at hlen
  rw [hwc] at hcontent
  obtain rfl := Write.values_inj hwf (Write.framed_of_values (hcontent ▸ by omega)) hcontent
  refine eq_map_of_mapM (fun a ha b hb => ?_) hbs
  exact Attribute.eq_canonical_of_ofValue (hwf _ (List.mem_map_of_mem ha)) hb

/-- The set `s` was made from attributes by `new` or was read. -/
def Made (s : AttributeSet) : Prop := (∃ as, new as = .ok s) ∨ ∃ limits, s.Readable limits

theorem Made.isSet (h : s.Made) : s.IsSet := by
  obtain ⟨as, h⟩ | ⟨limits, h⟩ := h
  · exact isSet_of_new h
  · exact h.isSet

/-- Writing the set `s` keeps the first value of the attribute `id`: the set was read, or that value
is the first one in canonical order. -/
def Keeps (s : AttributeSet) (id : Oid) : Prop :=
  (∃ limits, s.Readable limits) ∨ ∀ a ∈ s.get? id, a.canonical.values.head? = a.values.head?

/-- An attribute `a` of a set is the one that is found under `a.id`. -/
theorem get?_of_mem {a : Attribute} (h : a ∈ s.attributes) : s.get? a.id = some a := by
  have hnodup := Attribute.repeated?_eq_none.mp s.distinct
  obtain ⟨c, hc⟩ : ∃ c, s.attributes.find? (·.id == a.id) = some c :=
    Option.isSome_iff_exists.mp (List.find?_isSome.mpr ⟨a, h, beq_self_eq_true a.id⟩)
  have hid : c.id = a.id := by simpa using List.find?_some hc
  rw [get?, hc, List.inj_on_of_nodup_map hnodup (List.mem_of_find?_eq_some hc) h hid]

/-- The attribute with an identifier `id` is found in any order. -/
theorem get?_canonical (id : Oid) (h : t.attributes =
    (SetOrder.sortBy Attribute.octets s.attributes).map Attribute.canonical) :
    t.get? id = (s.get? id).map Attribute.canonical := by
  have hnodup := Attribute.repeated?_eq_none.mp s.distinct
  rw [get?, get?, h, List.find?_map]
  congr 1
  refine find?_perm (SetOrder.sortBy_perm _ _) fun a ha b hb hida hidb => ?_
  rw [SetOrder.mem_sortBy] at ha hb
  have hida : a.id = id := by simpa using hida
  have hidb : b.id = id := by simpa using hidb
  exact List.inj_on_of_nodup_map hnodup ha hb (hida.trans hidb.symm)

/-- **Attributes.** The set `t` that is read from the encoding of a set `s` has the same first value
of any attribute `id` whose first value is kept (`s.Keeps id`). -/
theorem first?_of_ofValue {id : Oid} (hs : s.Made) (hid : s.Keeps id)
    (ht : ofValue limits w = .ok t) (hlen : s.encoded.length < UInt32.size)
    (h : t.encoded = s.encoded) : t.first? id = s.first? id := by
  have hread (hs : ∃ limits, s.Readable limits) : t.first? id = s.first? id := by
    obtain ⟨_, _, hs⟩ := hs
    rw [eq_of_ofValue hs ht hlen h]
  obtain ⟨as, hs⟩ | hs := hs
  · obtain hs | hid := hid
    · exact hread hs
    · rw [first?, first?, get?_canonical id (attributes_of_new hs ht hlen h)]
      cases ha : s.get? id with
      | none => rfl
      | some a => exact hid a ha
  · exact hread hs

end AttributeSet

/-! ## Signers -/

/-- A name `m` that was read can be told from what follows, `r`. -/
theorem Name.Readable.append_inj {m n : Name} {r r' : Bytes}
    (hm : m.Readable limits) (hn : n.Readable limits')
    (hlen : (m.octets ++ r).length < UInt32.size) (h : m.octets ++ r = n.octets ++ r') :
    m = n ∧ r = r' := by
  obtain ⟨v, hm⟩ := hm
  obtain ⟨w, hn⟩ := hn
  have hlen' := hlen
  rw [h] at hlen'
  rw [Name.octets_of_ofValue hm, Name.octets_of_ofValue hn] at h
  rw [Name.octets_of_ofValue hm, List.length_append] at hlen
  rw [Name.octets_of_ofValue hn, List.length_append] at hlen'
  obtain ⟨rfl, hr⟩ := Value.octets_append_inj (Value.framed_of_length (by omega))
    (Value.framed_of_length (by omega)) h
  exact ⟨Name.ofValue_unique hm hn, hr⟩

namespace Signer

/-- The signer `s` is one that can be made: names are only ever read, and attributes are read or
made from their parts. -/
structure Made (s : Signer) : Prop where
  issuer : ∃ limits, s.issuer.Readable limits
  authenticated : ∀ set ∈ s.authenticated, set.Made
  unauthenticated : ∀ set ∈ s.unauthenticated, set.Made

theorem Readable.made {s : Signer} (h : s.Readable limits) : s.Made where
  issuer := ⟨limits, h.issuer⟩
  authenticated set hset := .inr ⟨limits, h.authenticated set hset⟩
  unauthenticated set hset := .inr ⟨limits, h.unauthenticated set hset⟩

theorem Made.hasSets {s : Signer} (h : s.Made) : s.HasSets :=
  ⟨fun set hset => (h.authenticated set hset).isSet,
    fun set hset => (h.unauthenticated set hset).isSet⟩

/-- The signers `s` and `t` have the same parts, up to the order in which attributes are kept. -/
structure Alike (s t : Signer) : Prop where
  version : t.version = s.version
  issuer : t.issuer = s.issuer
  serial : t.serial = s.serial
  digestAlgorithm : t.digestAlgorithm = s.digestAlgorithm
  authenticated :
    t.authenticated.map AttributeSet.encoded = s.authenticated.map AttributeSet.encoded
  encryptionAlgorithm : t.encryptionAlgorithm = s.encryptionAlgorithm
  signature : t.signature = s.signature
  unauthenticated :
    t.unauthenticated.map AttributeSet.encoded = s.unauthenticated.map AttributeSet.encoded

/-- Sets `under` a tag can be told from what follows if that starts with another tag. -/
theorem under_append_inj {tag : UInt8} {o o' : Option AttributeSet} {r r' : Bytes}
    (htag : Value.Short tag) (ho : ∀ s ∈ o, s.IsSet) (ho' : ∀ s ∈ o', s.IsSet)
    (hlen : (under tag o ++ r).length < UInt32.size) (hr : r.head? ≠ some tag)
    (hr' : r'.head? ≠ some tag) (h : under tag o ++ r = under tag o' ++ r') :
    o.map AttributeSet.encoded = o'.map AttributeSet.encoded ∧ r = r' := by
  cases o with
  | none =>
    cases o' with
    | none => exact ⟨rfl, h⟩
    | some s' =>
      obtain ⟨b, hs'⟩ := ho' s' rfl
      rw [under, under, hs', List.nil_append] at h
      exact absurd (by rw [h]; rfl) hr
  | some s =>
    obtain ⟨a, hs⟩ := ho s rfl
    cases o' with
    | none =>
      rw [under, under, hs, List.nil_append] at h
      exact absurd (by rw [← h]; rfl) hr'
    | some s' =>
      obtain ⟨b, hs'⟩ := ho' s' rfl
      rw [under, hs] at h hlen
      rw [under, hs'] at h
      have h : Write.element tag a ++ r = Write.element tag b ++ r' := h
      have hlen : (Write.element tag a ++ r).length < UInt32.size := hlen
      obtain ⟨rfl, hr⟩ := Write.element_append_inj_of_length htag hlen h
      rw [Option.map_some, Option.map_some, hs, hs']
      exact ⟨rfl, hr⟩

/-- The parts of a signer `s` can be told from `s.body`. -/
theorem alike_of_body {s t : Signer} (hs : s.Made) (ht : t.Readable limits)
    (hlen : s.body.length < UInt32.size) (h : s.body = t.body) : s.Alike t := by
  simp only [body, identity, Algorithm.octets_eq, Write.word, Write.integer, Write.octetString]
    at h hlen
  obtain ⟨hversion, h⟩ := Write.element_append_inj_of_length (by decide) hlen h
  have hlen := (Write.length_lt_of_element_append hlen).2
  obtain ⟨hidentity, h⟩ := Write.element_append_inj_of_length (by decide) hlen h
  obtain ⟨hilen, hlen⟩ := Write.length_lt_of_element_append hlen
  obtain ⟨limits', hissuer⟩ := hs.issuer
  obtain ⟨hissuer, hserial⟩ := hissuer.append_inj ht.issuer hilen hidentity
  rw [List.length_append] at hilen
  have hserial := Write.element_inj (by decide) (by omega) hserial
  obtain ⟨hdigest, h⟩ := Write.element_append_inj_of_length (by decide) hlen h
  obtain ⟨hdlen, hlen⟩ := Write.length_lt_of_element_append hlen
  obtain ⟨hauth, h⟩ := under_append_inj (by decide) hs.hasSets.1 ht.hasSets.1 hlen
    (by rw [Write.head?_element_append]; decide) (by rw [Write.head?_element_append]; decide) h
  rw [List.length_append] at hlen
  have hlen := Nat.lt_of_le_of_lt (Nat.le_add_left _ _) hlen
  obtain ⟨hencryption, h⟩ := Write.element_append_inj_of_length (by decide) hlen h
  obtain ⟨helen, hlen⟩ := Write.length_lt_of_element_append hlen
  obtain ⟨hsignature, h⟩ := Write.element_append_inj_of_length (by decide) hlen h
  obtain ⟨-, hlen⟩ := Write.length_lt_of_element_append hlen
  have h : under unauthenticatedTag s.unauthenticated ++ [] =
    under unauthenticatedTag t.unauthenticated ++ [] := congrArg (· ++ []) h
  obtain ⟨hunauth, -⟩ := under_append_inj (by decide) hs.hasSets.2 ht.hasSets.2
    (by rwa [List.append_nil]) (by decide) (by decide) h
  exact {
    version := UInt32.toNat_inj.mp (Int.ofNat_inj.mp (BigEndian.ofInt_inj hversion.symm))
    issuer := hissuer.symm
    serial := BigEndian.ofInt_inj hserial.symm
    digestAlgorithm := (Algorithm.content_inj hdlen hdigest).symm
    authenticated := hauth.symm
    encryptionAlgorithm := (Algorithm.content_inj helen hencryption).symm
    signature := hsignature.symm
    unauthenticated := hunauth.symm }

/-- **Signers.** What is read from the encoding of a signer `s` has the same parts, up to the order
in which attributes are kept. -/
theorem alike_of_ofValue {s t : Signer} (hs : s.Made) (hv : s.value.Framed)
    (h : ofValue limits .current s.value = .ok t) : s.Alike t := by
  obtain ⟨hvalue, ht⟩ := (ofValue_current_eq_ok hv).mp h
  exact alike_of_body hs ht hv (congrArg Value.content hvalue)

/-- Sets that were read, `o` and `o'`, are the same if their encodings are. -/
theorem attributes_eq {o o' : Option AttributeSet} (ho : ∀ s ∈ o, s.Readable limits)
    (ho' : ∀ s ∈ o', s.Readable limits') (hlen : ∀ s ∈ o, s.encoded.length < UInt32.size)
    (h : o'.map AttributeSet.encoded = o.map AttributeSet.encoded) : o' = o := by
  cases o with
  | none => simpa using h
  | some s =>
    obtain ⟨t, rfl, ht⟩ := Option.map_eq_some_iff.mp h
    obtain ⟨v, hs⟩ := ho s rfl
    obtain ⟨w, ht'⟩ := ho' t rfl
    rw [AttributeSet.eq_of_ofValue hs ht' (hlen s rfl) ht]

theorem Writable.length_lt {s : Signer} (h : s.Writable) :
    (∀ set ∈ s.authenticated, set.encoded.length < UInt32.size) ∧
      ∀ set ∈ s.unauthenticated, set.encoded.length < UInt32.size := by
  have hmax : Limits.default.maxInput < UInt32.size := by decide
  exact ⟨fun set hset => Nat.lt_of_le_of_lt (h.1 set hset) hmax,
    fun set hset => Nat.lt_of_le_of_lt (h.2 set hset) hmax⟩

/-- A signer `s` that was read does not change when its encoding is read again. -/
theorem Alike.eq {s t : Signer} (h : s.Alike t) (hs : s.Readable limits)
    (ht : t.Readable limits') (hw : s.Writable) : t = s := by
  obtain ⟨hauth, hunauth⟩ := hw.length_lt
  have hauth := attributes_eq hs.authenticated ht.authenticated hauth h.authenticated
  have hunauth := attributes_eq hs.unauthenticated ht.unauthenticated hunauth h.unauthenticated
  obtain ⟨hversion, hissuer, hserial, hdigest, -, hencryption, hsignature, -⟩ := h
  obtain ⟨_, _, _, _, _, _, _, _⟩ := s
  obtain ⟨_, _, _, _, _, _, _, _⟩ := t
  cases hversion
  cases hissuer
  cases hserial
  cases hdigest
  cases hauth
  cases hencryption
  cases hsignature
  cases hunauth
  rfl

end Signer

end Pkix
