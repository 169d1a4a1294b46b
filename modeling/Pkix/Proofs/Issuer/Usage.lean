import Pkix.Issuer
import Pkix.Proofs.Extension.Attributes
import Pkix.Proofs.Extension.Content

/-!
# What follows from a request

The extensions of a new certificate are made from the request: its constraints, the identifier of
its key, the uses of the key that its purposes and its authority call for, and the purposes.

* `KeyUse.getD_bits`: the bits of a list of uses are those of the uses in it, and no others.
* `Request.allExtensions_eq`: the extensions of a request that lists none itself.
* `Certificate.keyUsage?_eq`, `Certificate.isAuthority_eq`, `Certificate.purposes_eq_ok`: what is
  read of them.
-/

namespace Pkix

open Der

/-! ## Bits of uses -/

namespace KeyUse

theorem getD_foldl_set (uses : List KeyUse) (bits : List Bool) (n : Nat) :
    (uses.foldl (set · · true) bits).getD n false = true ↔
      bits.getD n false = true ∨ ∃ u ∈ uses, u.index = n := by
  induction uses generalizing bits with
  | nil => simp
  | cons u uses ih =>
    simp only [List.foldl_cons, ih, getD_set, List.mem_cons, exists_eq_or_imp]
    by_cases h : u.index = n
    · simp [h]
    · rw [if_neg h]
      simp only [h, false_or]

/-- The bits of a list of `uses` are those of the uses in it, and no others. -/
theorem getD_bits (uses : List KeyUse) (n : Nat) :
    (bits uses).getD n false = true ↔ ∃ u ∈ uses, u.index = n := by
  rw [bits, getD_foldl_set]
  simp

theorem length_set_le {bits : List Bool} (h : bits.length ≤ 9) (u : KeyUse) (b : Bool) :
    (set bits u b).length ≤ 9 := by
  have hindex : u.index + 1 ≤ 9 := by cases u <;> decide
  simp only [set, List.length_set, List.length_append, List.length_replicate]
  omega

/-- There are nine of them: no use has an index from 9 on, so `bits uses` is no longer. -/
theorem length_bits_le (uses : List KeyUse) : (bits uses).length ≤ 9 := by
  suffices haux : ∀ acc : List Bool, acc.length ≤ 9 →
      (uses.foldl (set · · true) acc).length ≤ 9 from haux [] (by decide)
  induction uses with
  | nil => exact fun _ h => h
  | cons u uses ih => exact fun acc h => ih _ (length_set_le h u true)

end KeyUse

/-! ## Extensions of a request -/

namespace Request

/-- The identifier of the key of `r`. -/
def keyIdExtension (r : Request) : Extension :=
  ⟨Oid.subjectKeyIdentifier, false, Write.octetString r.publicKey.identifier⟩

/-- The uses of the key of `r`. -/
def usesExtension (r : Request) : Extension :=
  ⟨Oid.keyUsage, true, Write.namedBits (.ofBools (KeyUse.bits r.uses))⟩

/-- The purposes of the key of `r`. -/
def purposesExtension (r : Request) : Extension :=
  ⟨Oid.extendedKeyUsage, true,
    Write.element Tag.sequence ((r.purposes.map Purpose.oid).flatMap Write.oid)⟩

/-- The extensions that follow from the request `r`. -/
def implied (r : Request) : List Extension :=
  r.constraints :: r.keyIdExtension ::
    ((if r.uses = [] then [] else [r.usesExtension]) ++
      if r.purposes = [] then [] else [r.purposesExtension])

variable {r : Request}

theorem uses_eq_nil : r.uses = [] ↔ r.isAuthority = false ∧ r.purposes = [] := by
  cases h : r.isAuthority <;> simp [uses, h]

/-- The uses that `r` calls for, by their bits. -/
theorem exists_uses_iff (r : Request) (n : Nat) :
    (∃ u ∈ r.uses, u.index = n) ↔
      (r.isAuthority = true ∧ (n = KeyUse.keyCertSign.index ∨ n = KeyUse.crlSign.index)) ∨
      (n = KeyUse.keyEncipherment.index ∧
        ∃ p ∈ r.purposes, p = .clientAuth ∨ p = .serverAuth ∨ p = .emailProtection) ∨
      (n = KeyUse.digitalSignature.index ∧
        ∃ p ∈ r.purposes, p = .codeSigning ∨ p = .timeStamping ∨ p = .ocspSigning) := by
  have huse (p : Purpose) : (useFor p).index = n ↔
      (n = KeyUse.keyEncipherment.index ∧
        (p = .clientAuth ∨ p = .serverAuth ∨ p = .emailProtection)) ∨
      (n = KeyUse.digitalSignature.index ∧
        (p = .codeSigning ∨ p = .timeStamping ∨ p = .ocspSigning)) := by
    cases p <;> simp [useFor, eq_comm]
  have hauthority : (∃ u ∈ (if r.isAuthority then [.keyCertSign, .crlSign] else [] : List KeyUse),
      u.index = n) ↔
        r.isAuthority = true ∧ (n = KeyUse.keyCertSign.index ∨ n = KeyUse.crlSign.index) := by
    cases r.isAuthority <;> simp [eq_comm]
  have hpurposes : (∃ u ∈ r.purposes.map useFor, u.index = n) ↔
      (n = KeyUse.keyEncipherment.index ∧
        ∃ p ∈ r.purposes, p = .clientAuth ∨ p = .serverAuth ∨ p = .emailProtection) ∨
      (n = KeyUse.digitalSignature.index ∧
        ∃ p ∈ r.purposes, p = .codeSigning ∨ p = .timeStamping ∨ p = .ocspSigning) := by
    simp only [List.mem_map, exists_exists_and_eq_and, huse]
    constructor
    · rintro ⟨p, hp, ⟨hn, h⟩ | ⟨hn, h⟩⟩
      · exact .inl ⟨hn, p, hp, h⟩
      · exact .inr ⟨hn, p, hp, h⟩
    · rintro (⟨hn, p, hp, h⟩ | ⟨hn, p, hp, h⟩)
      · exact ⟨p, hp, .inl ⟨hn, h⟩⟩
      · exact ⟨p, hp, .inr ⟨hn, h⟩⟩
  rw [← hpurposes, ← hauthority]
  simp only [uses, List.mem_append, or_and_right, exists_or]

theorem allExtensions_eq (r : Request) : r.allExtensions = .ok (r.extensions ++ r.implied) := by
  have hpurposes : r.purposes ≠ [] →
      (TypedExtension.extendedKeyUsage true (r.purposes.map Purpose.oid)).extension =
        .ok r.purposesExtension := by
    intro hne
    unfold purposesExtension
    cases h : r.purposes.map Purpose.oid with
    | nil => exact absurd (List.map_eq_nil_iff.mp h) hne
    | cons p ps => rfl
  have husage : r.usage.mapM TypedExtension.extension =
      .ok ((if r.uses = [] then [] else [r.usesExtension]) ++
        if r.purposes = [] then [] else [r.purposesExtension]) := by
    unfold usage
    by_cases huses : r.uses = []
    · have hnone := (uses_eq_nil.mp huses).2
      simp [huses, hnone, pure, Except.pure]
    · by_cases hnone : r.purposes = []
      · simp only [List.isEmpty_iff, huses, hnone, if_true, if_false, List.append_nil]
        rfl
      · simp only [List.isEmpty_iff, huses, hnone, if_false, List.cons_append, List.nil_append,
          List.mapM_cons, List.mapM_nil, hpurposes hnone]
        rfl
  rw [allExtensions, List.mapM_cons, husage]
  rfl

/-- The identifiers of `r.implied` fit a certificate structure. -/
theorem arcs_of_implied : ∀ x ∈ r.implied, ∀ a ∈ x.id.arcs, a < UInt32.size := by
  have hknown : ∀ id ∈ [Oid.basicConstraints, Oid.subjectKeyIdentifier, Oid.keyUsage,
      Oid.extendedKeyUsage], ∀ a ∈ id.arcs, a < UInt32.size := by decide
  intro x hx
  apply hknown
  simp only [implied, List.mem_cons, List.mem_append] at hx
  obtain rfl | rfl | hx | hx := hx
  · exact List.mem_cons_self
  · exact List.mem_cons_of_mem _ List.mem_cons_self
  · split at hx
    · cases hx
    · cases List.mem_singleton.mp hx
      exact List.mem_of_getElem? (i := 2) rfl
  · split at hx
    · cases hx
    · cases List.mem_singleton.mp hx
      exact List.mem_of_getElem? (i := 3) rfl

/-! The extensions of the three kinds that are looked for. -/

@[simp]
theorem id_constraints (r : Request) : r.constraints.id = Oid.basicConstraints := rfl

@[simp]
theorem id_keyIdExtension (r : Request) : r.keyIdExtension.id = Oid.subjectKeyIdentifier := rfl

@[simp]
theorem id_usesExtension (r : Request) : r.usesExtension.id = Oid.keyUsage := rfl

@[simp]
theorem id_purposesExtension (r : Request) : r.purposesExtension.id = Oid.extendedKeyUsage := rfl

theorem find?_constraints (r : Request) :
    r.implied.find? (·.id == Oid.basicConstraints) = some r.constraints := by
  simp [implied]

theorem find?_uses (r : Request) :
    r.implied.find? (·.id == Oid.keyUsage) =
      if r.uses = [] then none else some r.usesExtension := by
  have hconstraints : (Oid.basicConstraints == Oid.keyUsage) = false := by decide
  have hkeyId : (Oid.subjectKeyIdentifier == Oid.keyUsage) = false := by decide
  by_cases h : r.uses = []
  · simp [implied, hconstraints, hkeyId, h, (uses_eq_nil.mp h).2]
  · simp [implied, hconstraints, hkeyId, h]

theorem find?_purposes (r : Request) :
    r.implied.find? (·.id == Oid.extendedKeyUsage) =
      if r.purposes = [] then none else some r.purposesExtension := by
  have hconstraints : (Oid.basicConstraints == Oid.extendedKeyUsage) = false := by decide
  have hkeyId : (Oid.subjectKeyIdentifier == Oid.extendedKeyUsage) = false := by decide
  have huses : (Oid.keyUsage == Oid.extendedKeyUsage) = false := by decide
  by_cases h : r.purposes = [] <;> by_cases hnone : r.uses = [] <;>
    simp [implied, hconstraints, hkeyId, huses, h, hnone]

/-! What is read of them. -/

theorem length_usesExtension_le (r : Request) :
    r.usesExtension.value.length ≤ Limits.default.maxInput := by
  let bits := BitString.trim (KeyUse.bits r.uses)
  have hbits : bits.length ≤ 9 :=
    Nat.le_trans (BitString.length_trim_le _) (KeyUse.length_bits_le r.uses)
  have hpack := BitString.length_pack bits
  have hspare : BitString.spare bits.length < 8 := Nat.mod_lt _ (by decide)
  have hmax : 64 ≤ Limits.default.maxInput := by decide
  let content := (BitString.ofBools bits).unused :: (BitString.ofBools bits).octets
  have hcontent : content.length = (BitString.pack bits).length + 1 := rfl
  calc r.usesExtension.value.length
      = (Write.element Tag.bitString content).length :=
        congrArg List.length (Write.namedBits_ofBools _)
    _ ≤ content.length + 5 := Write.length_element_le_add (by omega)
    _ ≤ Limits.default.maxInput := by omega

theorem ofExtension_usesExtension (r : Request) :
    TypedExtension.ofExtension r.usesExtension =
      .ok (.keyUsage (BitString.trim (KeyUse.bits r.uses))) := by
  have hread : Content.decode Oid.keyUsage r.usesExtension.value =
      .ok (.keyUsage (BitString.trim (KeyUse.bits r.uses))) :=
    Content.decodeKeyUsage_namedBits r.length_usesExtension_le
  simp only [TypedExtension.ofExtension, id_usesExtension, hread, bind, Except.bind]
  rfl

/-- Purposes `ps` are read from their elements, if they are not too many. -/
theorem readPurposes_flatMap_eq_ok {ids ps : List Oid}
    (hids : ∀ id ∈ ids, id.content.length < UInt32.size) :
    Content.readPurposes (Value.ofOctet Tag.sequence (ids.flatMap Write.oid)) = .ok ps ↔
      ps = ids ∧ ids.length ≤ Limits.default.maxElements := by
  rw [Content.readPurposes_eq_ok]
  constructor
  · rintro ⟨hv, hps, hcount⟩
    have hframed {os : List Oid} (hos : ∀ id ∈ os, id.content.length < UInt32.size) :
        ∀ v ∈ os.map fun id => Value.ofOctet Tag.oid id.content, v.Framed := by
      intro v hv
      obtain ⟨id, hid, rfl⟩ := List.mem_map.mp hv
      exact hos id hid
    have hcontent : ids.flatMap Write.oid = ps.flatMap Write.oid := congrArg Value.content hv
    rw [Content.flatMap_oid, Content.flatMap_oid] at hcontent
    have hvalues := Write.values_inj (hframed hids) (hframed hps) hcontent
    have hinj : Function.Injective fun id : Oid => Value.ofOctet Tag.oid id.content :=
      fun _ _ h => Oid.content_inj.mp (congrArg Value.content h)
    obtain rfl := List.map_injective_iff.mpr hinj hvalues
    exact ⟨rfl, hcount⟩
  · rintro ⟨rfl, hcount⟩
    exact ⟨rfl, hids, hcount⟩

/-- So are those in an extension, `r.purposesExtension`. -/
theorem ofExtension_purposesExtension_eq_ok {t : TypedExtension}
    (hlen : r.purposesExtension.value.length ≤ Limits.default.maxInput) :
    TypedExtension.ofExtension r.purposesExtension = .ok t ↔
      t = .extendedKeyUsage true (r.purposes.map Purpose.oid) ∧
        r.purposes.length ≤ Limits.default.maxElements := by
  have hdecode : decode r.purposesExtension.value = .ok (Value.ofOctet Tag.sequence
      ((r.purposes.map Purpose.oid).flatMap Write.oid)) := decode_element (by decide) hlen
  have hne : r.purposesExtension.value ≠ [] := List.cons_ne_nil _ _
  have hframed := Write.framed_of_values
    (Content.flatMap_oid _ ▸ Write.lt_size_of_element_le hlen)
  have hids : ∀ id ∈ r.purposes.map Purpose.oid, id.content.length < UInt32.size :=
    fun id hid => hframed _ (List.mem_map_of_mem hid)
  have hread : Content.decode Oid.extendedKeyUsage r.purposesExtension.value = do
      return .extendedKeyUsage (← Content.optionally r.purposesExtension.value
        Content.readPurposes) := rfl
  simp only [TypedExtension.ofExtension, id_purposesExtension, hread, Content.optionally,
    if_neg hne, hdecode, bind_eq_ok, pure_eq_ok, Except.ok.injEq, exists_eq_left',
    readPurposes_flatMap_eq_ok hids, List.length_map]
  constructor
  · rintro ⟨_, ⟨_, ⟨_, ⟨rfl, hcount⟩, rfl⟩, rfl⟩, rfl⟩
    exact ⟨rfl, hcount⟩
  · rintro ⟨rfl, hcount⟩
    exact ⟨_, ⟨_, ⟨_, ⟨rfl, hcount⟩, rfl⟩, rfl⟩, rfl⟩

end Request

namespace Certificate

variable {c : Certificate} {r : Request}

theorem isAuthority_eq (h : c.rawExtensions = r.implied) : c.isAuthority = .ok r.isAuthority := by
  have hread : BasicConstraints.ofOctets? r.constraints.value = some r.isAuthority := by
    show BasicConstraints.ofOctets? (BasicConstraints.octets r.isAuthority) = _
    cases r.isAuthority <;> decide
  simp only [isAuthority, extension?, h, r.find?_constraints, hread]

theorem keyUsage?_eq (h : c.rawExtensions = r.implied) :
    c.keyUsage? = .ok (if r.uses = [] then none
      else some (.keyUsage (BitString.trim (KeyUse.bits r.uses)))) := by
  simp only [keyUsage?, typedExtension?, extension?, h, r.find?_uses]
  by_cases hnone : r.uses = []
  · simp only [if_pos hnone]
  · simp only [if_neg hnone, r.ofExtension_usesExtension]
    rfl

theorem ofOid?_oid (p : Purpose) : Purpose.ofOid? p.oid = some p := by
  cases p <;> decide

/-- The purposes of `r` are read back, if they are not too many. -/
theorem purposes_eq_ok (h : c.rawExtensions = r.implied)
    (hlen : r.purposesExtension.value.length ≤ Limits.default.maxInput) :
    c.purposes = .ok r.purposes ↔ r.purposes.length ≤ Limits.default.maxElements := by
  have hback : (r.purposes.map Purpose.oid).filterMap Purpose.ofOid? = r.purposes := by
    rw [List.filterMap_map]
    exact (List.filterMap_congr fun p _ => ofOid?_oid p).trans List.filterMap_some
  by_cases hnone : r.purposes = []
  · simp only [purposes, typedExtension?, extension?, h, r.find?_purposes, hnone]
    exact iff_of_true rfl (Nat.zero_le _)
  · simp only [purposes, typedExtension?, extension?, h, r.find?_purposes, if_neg hnone]
    constructor
    · intro hread
      simp only [bind_eq_ok, pure_eq_ok] at hread
      obtain ⟨_, ⟨t, ht, -⟩, -⟩ := hread
      exact (Request.ofExtension_purposesExtension_eq_ok hlen).mp ht |>.2
    · intro hcount
      rw [(Request.ofExtension_purposesExtension_eq_ok hlen).mpr ⟨rfl, hcount⟩]
      exact congrArg Except.ok hback

end Certificate

end Pkix
