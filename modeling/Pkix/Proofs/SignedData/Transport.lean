import Pkix.Proofs.Der.Canonicity
import Pkix.Proofs.SignedData.Limits

/-!
# Attribute sets in transport

A set that was made from attributes keeps them as they are listed; what is read from its encoding
has them, and the values of each, in canonical order.

* `AttributeSet.canonical`: the set that is read. `AttributeSet.exists_ofValue_of_new`: it is read
  exactly if it fits the limits and every attribute has a value.
* `AttributeSet.made_sets_read_back`: which lists of attributes are refused, and which sets are read
  back.
* `AttributeSet.Answers`: what is looked up in a set, before and after.
* `AttributeSet.lookups_in_transport`: the lookups answer alike where the value that is listed first
  is also the first one in canonical order.
-/

namespace Pkix

open Der

variable {limits : Limits}

/-- Elements `vs` are read from a content that was written for them if there are not too many. -/
theorem Der.Value.children_eq_ok_of_content {v : Value} {vs ws : List Value}
    (hconstructed : v.tag.constructed = true) (hcontent : v.content = Write.values vs)
    (hframed : ∀ w ∈ vs, w.Framed) :
    v.children limits = .ok ws ↔ vs.length ≤ limits.maxElements ∧ vs = ws := by
  rw [Value.children_eq_ok, hcontent]
  constructor
  · rintro ⟨-, h, hframed', hcount⟩
    obtain rfl := Write.values_inj hframed hframed' h
    exact ⟨hcount, rfl⟩
  · rintro ⟨hcount, rfl⟩
    exact ⟨hconstructed, rfl, hframed, hcount⟩

/-! ## Lengths -/

theorem length_flatten_le {es : List Bytes} {n : Nat} (h : ∀ e ∈ es, e.length ≤ n) :
    es.flatten.length ≤ es.length * n := by
  induction es with
  | nil => simp
  | cons e es ih =>
    obtain ⟨he, hes⟩ := List.forall_mem_cons.mp h
    have := ih hes
    rw [List.flatten_cons, List.length_append, List.length_cons, Nat.add_mul, Nat.one_mul]
    omega

/-! ## Attributes -/

namespace Attribute

variable {as : List Attribute} {a b : Attribute}

theorem length_canonical (a : Attribute) : a.canonical.values.length = a.values.length :=
  SetOrder.length_sortBy _ _

/-- What was written for an attribute `a` is read, with the values in canonical order, if there is a
value and there are no more than the `limits` allow. -/
theorem ofValue_value (hv : a.value.Framed) :
    ofValue limits a.value = .ok b ↔
      (a.values.length ≤ limits.maxElements ∧ a.values ≠ []) ∧ a.canonical = b := by
  have hcanonical : (a.canonical.values ≠ [] ∧ a.canonical.values.length ≤ limits.maxElements) ↔
      a.values.length ≤ limits.maxElements ∧ a.values ≠ [] := by
    rw [← List.length_pos_iff, ← List.length_pos_iff, length_canonical, and_comm]
  constructor
  · intro h
    obtain rfl := eq_canonical_of_ofValue hv h
    exact ⟨hcanonical.mp ((ofValue_eq_ok hv).mp h).2, rfl⟩
  · rintro ⟨h, rfl⟩
    exact (ofValue_eq_ok hv).mpr ⟨a.value_eq, hcanonical.mpr h⟩

/-- What was written for attributes `as` is read where each of them is. -/
theorem mapM_ofValue_value {bs : List Attribute} (hframed : ∀ a ∈ as, a.value.Framed) :
    (as.map value).mapM (ofValue limits) = .ok bs ↔
      (∀ a ∈ as, a.values.length ≤ limits.maxElements ∧ a.values ≠ []) ∧ as.map canonical = bs := by
  rw [List.mapM_map]
  exact mapM_eq_ok_of_total fun a ha _ => ofValue_value (hframed a ha)

/-- How long the encoding of an attribute `a` is does not depend on any order. -/
theorem length_octets (a : Attribute) : a.octets.length =
    (Write.element Tag.sequence
      (Write.oid a.id ++ Write.element Tag.set (Write.values a.values))).length := by
  have hset : (Write.setOf Tag.set (a.values.map Value.octets)).length =
      (Write.element Tag.set (Write.values a.values)).length := Write.length_setOf _ _
  rw [octets, Write.length_element, Write.length_element, List.length_append, List.length_append,
    hset]

/-- Attributes `as` with short identifiers and values make a set within the limit. -/
theorem length_setOf_le_maxInput {n : Nat} (hcount : as.length * (n + 15) < 16777216)
    (h : ∀ a ∈ as, a.id.content.length + (Write.values a.values).length ≤ n) :
    (Write.setOf Tag.set (as.map octets)).length ≤ Limits.default.maxInput := by
  have hoctets : ∀ e ∈ as.map octets, e.length ≤ n + 15 := by
    intro e he
    obtain ⟨a, ha, rfl⟩ := List.mem_map.mp he
    have hn : n + 15 ≤ as.length * (n + 15) :=
      Nat.le_mul_of_pos_left _ (List.length_pos_of_mem ha)
    have ha := h a ha
    have hid : (Write.oid a.id).length ≤ a.id.content.length + 5 :=
      Write.length_element_le_add (by omega)
    have hvalues : (Write.element Tag.set (Write.values a.values)).length ≤
        (Write.values a.values).length + 5 := Write.length_element_le_add (by omega)
    have hcontent : (Write.oid a.id ++ Write.element Tag.set (Write.values a.values)).length ≤
        n + 10 := by
      rw [List.length_append]
      omega
    rw [length_octets]
    exact Nat.le_trans (Write.length_element_le_add (by omega)) (by omega)
  have hflatten := length_flatten_le hoctets
  rw [List.length_map] at hflatten
  rw [Write.length_setOf]
  calc (Write.element Tag.set (as.map octets).flatten).length
      ≤ (as.map octets).flatten.length + 5 := Write.length_element_le_add (by omega)
    _ ≤ 16777216 + 5 := by omega
    _ ≤ Limits.default.maxInput := by decide

/-- The attributes `as` and `bs` are the same ones in some order, each with the same values in some
order. -/
def SameUpToOrder (as bs : List Attribute) : Prop :=
  ∃ cs, cs.Perm as ∧ List.Forall₂ (fun c b => b.id = c.id ∧ b.values.Perm c.values) cs bs

end Attribute

namespace AttributeSet

variable {as : List Attribute} {s : AttributeSet}

/-! ## Sets that are made -/

/-- Attributes `as` with different identifiers make a set. -/
theorem exists_new (as : List Attribute) (h : (as.map Attribute.id).Nodup) :
    ∃ s, new as = .ok s ∧ s.attributes = as ∧
      s.encoded = Write.setOf Tag.set (as.map Attribute.octets) :=
  ⟨⟨as, _, Attribute.repeated?_eq_none.mpr h⟩, new_eq_ok.mpr ⟨rfl, rfl⟩, rfl, rfl⟩

/-- An attribute `a` with a short identifier and short values makes a set within the limit. -/
theorem exists_new_singleton (a : Attribute)
    (h : a.id.content.length + (Write.values a.values).length < 16777201) :
    ∃ s, new [a] = .ok s ∧ s.attributes = [a] ∧ s.encoded.length ≤ Limits.default.maxInput := by
  obtain ⟨s, hs, has, hencoded⟩ := exists_new [a] (List.nodup_singleton a.id)
  refine ⟨s, hs, has, hencoded ▸ Attribute.length_setOf_le_maxInput ?_
    (List.forall_mem_singleton.mpr (Nat.le_refl _))⟩
  rw [List.length_singleton]
  omega

/-- Attributes `as` make no set if an identifier is repeated, which the error names. -/
theorem new_eq_error {e : Error} :
    new as = .error e ↔
      ∃ id, Attribute.repeated? as = some id ∧ e = .invalidInput (.attributeRepeated id) := by
  unfold new
  split
  · rename_i id h
    simp [h, eq_comm]
  · rename_i h
    simp [h]

/-! ## Sets that are read -/

/-- The set `s` with its attributes, and the values of each, in canonical order. -/
def canonical (s : AttributeSet) : AttributeSet where
  attributes := (SetOrder.sortBy Attribute.octets s.attributes).map Attribute.canonical
  encoded := s.encoded
  distinct := by
    rw [Attribute.repeated?_eq_none, List.map_map]
    have hids := (SetOrder.sortBy_perm Attribute.octets s.attributes).map Attribute.id
    exact hids.nodup_iff.mpr (Attribute.repeated?_eq_none.mp s.distinct)

theorem eq_canonical_iff {t : AttributeSet} : s.canonical = t ↔
    (SetOrder.sortBy Attribute.octets s.attributes).map Attribute.canonical = t.attributes ∧
      s.encoded = t.encoded := by
  obtain ⟨_, _, _⟩ := t
  rw [canonical, mk.injEq]

theorem sameUpToOrder_canonical (s : AttributeSet) :
    Attribute.SameUpToOrder s.attributes s.canonical.attributes := by
  refine ⟨_, SetOrder.sortBy_perm Attribute.octets s.attributes, ?_⟩
  rw [canonical, List.forall₂_map_right_iff, List.forall₂_same]
  exact fun a _ => ⟨rfl, SetOrder.sortBy_perm _ _⟩

theorem fits_iff : (s.Fits limits ∧ ∀ a ∈ s.attributes, a.values ≠ []) ↔
    s.attributes.length ≤ limits.maxElements ∧
      ∀ a ∈ s.attributes, a.values.length ≤ limits.maxElements ∧ a.values ≠ [] := by
  constructor
  · rintro ⟨⟨hlength, hlengths⟩, hne⟩
    exact ⟨hlength, fun a ha => ⟨hlengths a ha, hne a ha⟩⟩
  · rintro ⟨hlength, h⟩
    exact ⟨⟨hlength, fun a ha => (h a ha).1⟩, fun a ha => (h a ha).2⟩

/-- **Sets that were made.** The encoding of a set `s` within the limit is an element `v`, from
which `s.canonical` is read if no list in it is too long and every attribute has a value. -/
theorem exists_ofValue_of_new (hs : new as = .ok s)
    (hlen : s.encoded.length ≤ Limits.default.maxInput) :
    ∃ v, decode s.encoded = .ok v ∧ ∀ limits t, ofValue limits v = .ok t ↔
      (s.Fits limits ∧ ∀ a ∈ s.attributes, a.values ≠ []) ∧ s.canonical = t := by
  have hencoded := encoded_of_new hs
  generalize hsorted : SetOrder.sortBy Attribute.octets s.attributes = sorted at hencoded
  have hmem {a : Attribute} : a ∈ s.attributes ↔ a ∈ sorted := by
    rw [← hsorted, SetOrder.mem_sortBy]
  have hcount : s.attributes.length = (sorted.map Attribute.value).length := by
    rw [← hsorted, List.length_map, SetOrder.length_sortBy]
  rw [hencoded] at hlen
  have hframed := Write.framed_of_values (Write.lt_size_of_element_le hlen)
  have hattribute : ∀ a ∈ sorted, a.value.Framed := fun a ha =>
    hframed _ (List.mem_map_of_mem ha)
  refine ⟨_, hencoded ▸ decode_element (by decide) hlen, fun limits t => ?_⟩
  rw [ofValue_eq_ok, eq_canonical_iff, fits_iff, hsorted, hencoded, hcount]
  simp only [hmem]
  constructor
  · rintro ⟨⟨ws, hws, hbs⟩, ht⟩
    obtain ⟨hlength, rfl⟩ := (Value.children_eq_ok_of_content rfl rfl hframed).mp hws
    obtain ⟨hvalues, hattributes⟩ := (Attribute.mapM_ofValue_value hattribute).mp hbs
    exact ⟨⟨hlength, hvalues⟩, hattributes, ht.symm⟩
  · rintro ⟨⟨hlength, hvalues⟩, hattributes, ht⟩
    exact ⟨⟨_, (Value.children_eq_ok_of_content rfl rfl hframed).mpr ⟨hlength, rfl⟩,
      (Attribute.mapM_ofValue_value hattribute).mpr ⟨hvalues, hattributes⟩⟩, ht.symm⟩

/-- **Making and reading.** `new` makes a set of any attributes unless two of them share an
identifier; the error names the first identifier that is repeated. One is made again of the
attributes of any set that is read. Take a set of attributes that all have values, which is within
the limits but for how many values there are. Its encoding is an element, and that is read as a set
exactly if no attribute has more values than the `limits` allow. What is read has the same encoding,
and the same attributes up to their order and that of their values (`SameUpToOrder`). -/
theorem made_sets_read_back :
    (∀ as, (∃ e, new as = .error e) ↔ ¬(as.map Attribute.id).Nodup) ∧
    (∀ as e, new as = .error e → ∃ front a back, as = front ++ a :: back ∧
      (front.map Attribute.id).Nodup ∧ a.id ∈ front.map Attribute.id ∧
      e = .invalidInput (.attributeRepeated a.id)) ∧
    (∀ limits v t, ofValue limits v = .ok t → ∃ s, new t.attributes = .ok s) ∧
    ∀ as s, new as = .ok s → (∀ a ∈ as, a.values ≠ []) →
      as.length ≤ Limits.default.maxElements → s.encoded.length ≤ Limits.default.maxInput →
      ∃ v, decode s.encoded = .ok v ∧
        ((∃ t, ofValue .default v = .ok t) ↔
          ∀ a ∈ as, a.values.length ≤ Limits.default.maxElements) ∧
        ∀ t, ofValue .default v = .ok t →
          t.encoded = s.encoded ∧ Attribute.SameUpToOrder as t.attributes := by
  refine ⟨fun as => ?_, fun as e h => ?_, fun _ _ t _ => ?_, fun as s hs hne hcount hlen => ?_⟩
  · rw [← Attribute.repeated?_eq_none, ← ne_eq, Option.ne_none_iff_exists']
    exact ⟨fun ⟨_, h⟩ => (new_eq_error.mp h).imp fun _ h => h.1,
      fun ⟨_, h⟩ => ⟨_, new_eq_error.mpr ⟨_, h, rfl⟩⟩⟩
  · obtain ⟨_, hrepeated, rfl⟩ := new_eq_error.mp h
    obtain ⟨front, a, back, rfl, hnodup, rfl, hid⟩ := Attribute.repeated?_eq_some.mp hrepeated
    exact ⟨front, a, back, rfl, hnodup, hid, rfl⟩
  · exact (exists_new _ (Attribute.repeated?_eq_none.mp t.distinct)).imp fun _ h => h.1
  · obtain ⟨v, hv, hread⟩ := exists_ofValue_of_new hs hlen
    obtain ⟨rfl, -⟩ := new_eq_ok.mp hs
    refine ⟨v, hv, ⟨?_, fun hcounts => ?_⟩, fun t ht => ?_⟩
    · rintro ⟨t, ht⟩
      exact ((hread _ t).mp ht).1.1.length_values
    · exact ⟨s.canonical, (hread _ _).mpr ⟨⟨⟨hcount, hcounts⟩, hne⟩, rfl⟩⟩
    · obtain ⟨-, rfl⟩ := (hread _ t).mp ht
      exact ⟨rfl, s.sameUpToOrder_canonical⟩

/-- A digest with another one that comes before it in canonical order, and a type. -/
def unordered : List Attribute :=
  [⟨Oid.messageDigest, [Value.ofOctet Tag.octetString [2], Value.ofOctet Tag.octetString [1]]⟩,
    Attribute.contentType Oid.data]

theorem length_unordered :
    (Write.setOf Tag.set (unordered.map Attribute.octets)).length ≤ Limits.default.maxInput :=
  Attribute.length_setOf_le_maxInput (n := 20) (by decide) (by decide +kernel)

/-- `made_sets_read_back` at `unordered`, which is not in canonical order, and is refused if it is
listed twice. -/
theorem exists_unordered_read_back :
    (∃ s v t, new unordered = .ok s ∧ decode s.encoded = .ok v ∧ ofValue .default v = .ok t ∧
      t.encoded = s.encoded ∧ Attribute.SameUpToOrder unordered t.attributes) ∧
    ∃ e, new (unordered ++ unordered) = .error e := by
  obtain ⟨hrefused, -, -, hmade⟩ := made_sets_read_back
  refine ⟨?_, (hrefused _).mpr (by decide)⟩
  obtain ⟨s, hs, -, hencoded⟩ := exists_new unordered (by decide)
  obtain ⟨v, hv, hread, hsame⟩ := hmade _ s hs (by decide) (by decide)
    (hencoded ▸ length_unordered)
  obtain ⟨t, ht⟩ := hread.mpr (by decide)
  exact ⟨s, v, t, hs, hv, ht, hsame t ht⟩

/-- One more value than is read. -/
def crowded : Attribute :=
  ⟨Oid.messageDigest, List.replicate 65537 (Value.ofOctet Tag.null [])⟩

theorem length_crowded : (Write.values crowded.values).length ≤ 65537 * 2 := by
  rw [crowded, Write.values, List.flatMap_def, List.map_replicate]
  refine Nat.le_trans (length_flatten_le (n := 2) fun e he => ?_) ?_
  · rw [List.eq_of_mem_replicate he]
    decide
  · exact Nat.le_of_eq (congrArg (· * 2) List.length_replicate)

/-- Sets are made, but not read, of an attribute without a value and of one with more values than
the limits allow, `crowded`. -/
theorem made_not_read :
    (∃ s v, new [⟨Oid.messageDigest, []⟩] = .ok s ∧ decode s.encoded = .ok v ∧
      ∀ t, ofValue .default v ≠ .ok t) ∧
    ∃ s v, new [crowded] = .ok s ∧ s.encoded.length ≤ Limits.default.maxInput ∧
      decode s.encoded = .ok v ∧ ∀ t, ofValue .default v ≠ .ok t := by
  constructor
  · obtain ⟨s, hs, has, hlen⟩ := exists_new_singleton ⟨Oid.messageDigest, []⟩ (by decide +kernel)
    obtain ⟨v, hv, hread⟩ := exists_ofValue_of_new hs hlen
    refine ⟨s, v, hs, hv, fun t ht => ?_⟩
    obtain ⟨⟨-, hne⟩, -⟩ := (hread _ t).mp ht
    rw [has] at hne
    exact hne _ (List.mem_singleton_self _) rfl
  · have hid : crowded.id.content.length ≤ 20 := by decide +kernel
    have hvalues := length_crowded
    obtain ⟨s, hs, has, hlen⟩ := exists_new_singleton crowded (by omega)
    obtain ⟨v, hv, hread⟩ := exists_ofValue_of_new hs hlen
    refine ⟨s, v, hs, hlen, hv, fun t ht => ?_⟩
    obtain ⟨⟨hfits, -⟩, -⟩ := (hread _ t).mp ht
    have hcount := hfits.length_values crowded (has ▸ List.mem_singleton_self _)
    rw [crowded, List.length_replicate] at hcount
    exact absurd hcount (by decide)

/-! ## Lookups -/

section

variable {α : Type} {read : Value → Except Error α} {id : Oid}

/-- What a lookup answers in a set that was made from attributes `as` and in the one that is read:
nothing where the attribute `id` is missing, or what `read` says of the value that is listed first
and of the one that is the first in canonical order. -/
inductive Answers (read : Value → Except Error α) (as : List Attribute) (id : Oid) :
    Except Error (Option α) → Except Error (Option α) → Prop
  | missing (notMem : id ∉ as.map Attribute.id) : Answers read as id (.ok none) (.ok none)
  | found {a : Attribute} {v w : Value} (mem : a ∈ as) (id_eq : a.id = id)
      (listed : a.values.head? = some v) (leads : SetOrder.Leads w a.values) :
      Answers read as id (some <$> read v) (some <$> read w)

/-- The value of the attribute `id` that is listed first is also the first one in canonical
order. -/
def FirstLeads (as : List Attribute) (id : Oid) : Prop :=
  ∀ a ∈ as, a.id = id → ∀ v, a.values.head? = some v → SetOrder.Leads v a.values

/-- A single value of `id` is the first one in any order. -/
theorem firstLeads_of_single (h : ∀ a ∈ as, a.id = id → a.values.length = 1) :
    FirstLeads as id := by
  intro a ha hid v hv
  obtain ⟨w, hw⟩ := List.length_eq_one_iff.mp (h a ha hid)
  rw [hw] at hv ⊢
  cases hv
  exact SetOrder.leads_singleton _

theorem Answers.eq_of_firstLeads {before after : Except Error (Option α)}
    (h : Answers read as id before after) (hfirst : FirstLeads as id) : after = before := by
  cases h with
  | missing notMem => rfl
  | found mem id_eq listed leads =>
    have := (hfirst _ mem id_eq _ listed).head?_sortBy
    rw [leads.head?_sortBy] at this
    cases this
    rfl

/-- What is answered is determined by the attribute `a` with the identifier. -/
theorem Answers.eq_of_mem {before after : Except Error (Option α)} {a : Attribute} {v w : Value}
    (h : Answers read as id before after) (hids : (as.map Attribute.id).Nodup) (ha : a ∈ as)
    (hid : a.id = id) (hv : a.values.head? = some v) (hw : SetOrder.Leads w a.values) :
    before = some <$> read v ∧ after = some <$> read w := by
  cases h with
  | missing notMem => exact absurd (hid ▸ List.mem_map_of_mem ha) notMem
  | found mem id_eq listed leads =>
    obtain rfl := List.inj_on_of_nodup_map hids mem ha (id_eq.trans hid.symm)
    have hleads := leads.head?_sortBy
    rw [hw.head?_sortBy] at hleads
    rw [hv] at listed
    cases listed
    cases hleads
    exact ⟨rfl, rfl⟩

theorem answers_canonical (hne : ∀ a ∈ s.attributes, a.values ≠ []) :
    Answers read s.attributes id (s.single id read) (s.canonical.single id read) := by
  have hcanonical : s.canonical.get? id = (s.get? id).map Attribute.canonical :=
    get?_canonical id rfl
  cases hget : s.get? id with
  | none =>
    rw [hget] at hcanonical
    rw [single_of_none hget, single_of_none hcanonical]
    refine .missing fun hmem => ?_
    obtain ⟨a, ha, rfl⟩ := List.mem_map.mp hmem
    rw [get?_of_mem ha] at hget
    cases hget
  | some a =>
    rw [hget] at hcanonical
    have ha := List.mem_of_find?_eq_some hget
    have hid : a.id = id := by simpa using List.find?_some hget
    have hlisted := List.head?_eq_some_head (hne a ha)
    obtain ⟨w, hw⟩ := SetOrder.exists_leads (hne a ha)
    rw [single_of_head? hget hlisted, single_of_head? hcanonical hw.head?_sortBy]
    exact .found ha hid hlisted hw

end

/-- **Lookups in transport.** Attributes `as` with different identifiers make a set `s`; if all of
them have values and they are within the limits, a set `t` is read from its encoding. The content
type, the digest and the time of signing are what the values that are listed first say in `s`, and
what the first ones in canonical order say in `t`. So the answers are the same where these are the
same values (`FirstLeads`). -/
theorem lookups_in_transport (hids : (as.map Attribute.id).Nodup)
    (hne : ∀ a ∈ as, a.values ≠ []) (hcount : as.length ≤ Limits.default.maxElements)
    (hcounts : ∀ a ∈ as, a.values.length ≤ Limits.default.maxElements)
    (hlen : (Write.setOf Tag.set (as.map Attribute.octets)).length ≤ Limits.default.maxInput) :
    ∃ s v t, new as = .ok s ∧ decode s.encoded = .ok v ∧ ofValue .default v = .ok t ∧
      Answers Value.oid as Oid.contentType s.contentType t.contentType ∧
      Answers Value.octetString as Oid.messageDigest s.messageDigest t.messageDigest ∧
      Answers Value.time as Oid.signingTime s.signingTime t.signingTime ∧
      (FirstLeads as Oid.contentType → t.contentType = s.contentType) ∧
      (FirstLeads as Oid.messageDigest → t.messageDigest = s.messageDigest) ∧
      (FirstLeads as Oid.signingTime → t.signingTime = s.signingTime) := by
  obtain ⟨s, hs, rfl, hencoded⟩ := exists_new as hids
  obtain ⟨v, hv, hread⟩ := exists_ofValue_of_new hs (hencoded ▸ hlen)
  have ht : ofValue .default v = .ok s.canonical :=
    (hread _ _).mpr ⟨⟨⟨hcount, hcounts⟩, hne⟩, rfl⟩
  have htype : Answers Value.oid s.attributes Oid.contentType s.contentType
    s.canonical.contentType := answers_canonical hne
  have hdigest : Answers Value.octetString s.attributes Oid.messageDigest s.messageDigest
    s.canonical.messageDigest := answers_canonical hne
  have htime : Answers Value.time s.attributes Oid.signingTime s.signingTime
    s.canonical.signingTime := answers_canonical hne
  exact ⟨s, v, s.canonical, hs, hv, ht, htype, hdigest, htime, htype.eq_of_firstLeads,
    hdigest.eq_of_firstLeads, htime.eq_of_firstLeads⟩

/-- `lookups_in_transport` at `unordered`: the single type stays the same, and of two digests the
second one takes the place of the first. -/
theorem exists_lookups_unordered :
    ∃ s v t, new unordered = .ok s ∧ decode s.encoded = .ok v ∧ ofValue .default v = .ok t ∧
      t.contentType = s.contentType ∧
      s.messageDigest = .ok (some [2]) ∧ t.messageDigest = .ok (some [1]) := by
  have hids : (unordered.map Attribute.id).Nodup := by decide
  obtain ⟨s, v, t, hs, hv, ht, -, hdigest, -, htype, -⟩ := lookups_in_transport hids
    (by decide) (by decide) (by decide) length_unordered
  have hleads : SetOrder.Leads (Value.ofOctet Tag.octetString [1])
      [Value.ofOctet Tag.octetString [2], Value.ofOctet Tag.octetString [1]] :=
    ⟨[Value.ofOctet Tag.octetString [2]], [], rfl, by decide +kernel, by decide⟩
  obtain ⟨hbefore, hafter⟩ := hdigest.eq_of_mem hids List.mem_cons_self rfl rfl hleads
  exact ⟨s, v, t, hs, hv, ht, htype (firstLeads_of_single (by decide)), hbefore, hafter⟩

/-- Two types that are not in canonical order. -/
def twoTypes : Attribute :=
  ⟨Oid.contentType,
    [Value.ofOctet Tag.oid Oid.signedData.content, Value.ofOctet Tag.oid Oid.data.content]⟩

/-- The type that is read for `twoTypes` is not the one that was looked up before. -/
theorem contentType_changes :
    ∃ s v t, new [twoTypes] = .ok s ∧ decode s.encoded = .ok v ∧ ofValue .default v = .ok t ∧
      s.contentType = .ok (some Oid.signedData) ∧ t.contentType = .ok (some Oid.data) := by
  obtain ⟨s, hs, has, hlen⟩ := exists_new_singleton twoTypes (by decide +kernel)
  obtain ⟨v, hv, hread⟩ := exists_ofValue_of_new hs hlen
  have hfits : s.Fits .default := ⟨by rw [has]; decide, by rw [has]; decide⟩
  have hne : ∀ a ∈ s.attributes, a.values ≠ [] := by rw [has]; decide
  have hanswers : Answers Value.oid s.attributes Oid.contentType s.contentType
    s.canonical.contentType := answers_canonical hne
  have hleads : SetOrder.Leads (Value.ofOctet Tag.oid Oid.data.content) twoTypes.values :=
    ⟨[Value.ofOctet Tag.oid Oid.signedData.content], [], rfl, by decide +kernel, by decide⟩
  obtain ⟨hbefore, hafter⟩ := hanswers.eq_of_mem (has ▸ List.nodup_singleton _)
    (has ▸ List.mem_singleton_self _) rfl rfl hleads
  rw [Value.oid_eq_ok.mpr rfl] at hbefore hafter
  exact ⟨s, v, s.canonical, hs, hv, (hread _ _).mpr ⟨⟨hfits, hne⟩, rfl⟩, hbefore, hafter⟩

end AttributeSet

end Pkix
