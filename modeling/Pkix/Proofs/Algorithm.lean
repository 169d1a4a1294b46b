import Pkix.Algorithm.Basic
import Pkix.Proofs.Der.Canonicity
import Pkix.Proofs.Der.Elements

/-!
# Algorithm identifiers: reading and writing are inverse

* `Algorithm.Readable`: the only rule on algorithms that the type does not carry.
* `Algorithm.ofValue_eq_ok`, `Algorithm.read_eq_ok`: the readers accept exactly what is written
  for readable algorithms.
-/

namespace Pkix.Algorithm

open Der

/-- NULL parameters of `a` have no content. -/
def Readable (a : Algorithm) : Prop :=
  ∀ v ∈ a.parameters, v.is Tag.null = true → v.content = []

theorem readable_plain (id : Oid) : (plain id).Readable := by
  intro v hv
  cases hv

theorem readable_withNull (id : Oid) : (withNull id).Readable := by
  intro v hv _
  cases hv
  rfl

/-- The octets of parameters, none for `none`. -/
def parametersOctets : Option Value → Bytes
  | some v => v.octets
  | none => []

/-- What stands inside the SEQUENCE of `a`. -/
def content (a : Algorithm) : Bytes := Write.oid a.id ++ parametersOctets a.parameters

theorem octets_eq (a : Algorithm) : a.octets = Write.element Tag.sequence a.content := by
  obtain ⟨id, parameters⟩ := a
  cases parameters <;> rfl

/-- The value that `a` is written as. -/
def value (a : Algorithm) : Value := Value.ofOctet Tag.sequence a.content

theorem octets_value (a : Algorithm) : a.value.octets = a.octets := by
  rw [octets_eq, value, Value.octets_ofOctet (by decide)]

/-- Parameters `v` are the one element that comes next at `c`. -/
theorem readParameters_some {c c' : Cursor} {v : Value} :
    readParameters c = .ok (some v, c') ↔
      c.Step v.octets c' ∧ v.Framed ∧ (v.is Tag.null = true → v.content = []) := by
  unfold readParameters
  split
  · rename_i hempty
    rw [Cursor.isEmpty, List.isEmpty_iff] at hempty
    constructor
    · intro h
      cases h
    · rintro ⟨hstep, -⟩
      have := hstep.rest
      rw [hempty] at this
      exact absurd (List.append_eq_nil_iff.mp this.symm).1 (Write.octets_ne_nil v)
  · simp only [bind_eq_ok, Prod.exists, Cursor.value_eq_ok]
    constructor
    · rintro ⟨w, c₁, ⟨hstep, hframed⟩, hnull⟩
      split at hnull
      · obtain ⟨_, hw, hret⟩ := bind_eq_ok.mp hnull
        obtain rfl := Value.null_eq_ok.mp hw
        cases hret
        exact ⟨hstep, hframed, fun _ => rfl⟩
      · rename_i hne
        cases hnull
        exact ⟨hstep, hframed, fun hv => absurd hv hne⟩
    · rintro ⟨hstep, hframed, hnull⟩
      refine ⟨v, c', ⟨hstep, hframed⟩, ?_⟩
      split
      · rename_i his
        have hv : v = Value.ofOctet Tag.null [] := by
          rw [Value.is_iff.mp his, hnull his]
        rw [(Value.null_eq_ok (u := ())).mpr hv]
        rfl
      · rfl

theorem readParameters_none {c c' : Cursor} :
    readParameters c = .ok (none, c') ↔ c.rest = [] ∧ c' = c := by
  unfold readParameters
  split
  · rename_i hempty
    rw [Cursor.isEmpty, List.isEmpty_iff] at hempty
    rw [pure_eq_ok]
    simp [hempty, eq_comm]
  · rename_i hempty
    rw [Cursor.isEmpty, List.isEmpty_iff] at hempty
    constructor
    · intro h
      obtain ⟨⟨v, c₁⟩, -, h⟩ := bind_eq_ok.mp h
      dsimp only at h
      split at h
      · obtain ⟨_, -, h⟩ := bind_eq_ok.mp h
        cases h
      · cases h
    · rintro ⟨h, -⟩
      exact absurd h hempty

/-- Parameters `ps` are what is left at `c`. -/
theorem readParameters_finish {c : Cursor} {ps : Option Value} :
    (∃ c', readParameters c = .ok (ps, c') ∧ c'.rest = []) ↔
      c.rest = parametersOctets ps ∧ (∀ v ∈ ps, v.Framed) ∧
        ∀ v ∈ ps, v.is Tag.null = true → v.content = [] := by
  cases ps with
  | none =>
    simp only [readParameters_none, parametersOctets]
    constructor
    · rintro ⟨_, ⟨hrest, rfl⟩, -⟩
      exact ⟨hrest, by simp, by simp⟩
    · rintro ⟨hrest, -, -⟩
      exact ⟨c, ⟨hrest, rfl⟩, hrest⟩
  | some v =>
    simp only [readParameters_some, parametersOctets, Option.mem_some_iff, forall_eq']
    constructor
    · rintro ⟨c', ⟨hstep, hframed, hnull⟩, hrest⟩
      have := hstep.rest
      rw [hrest, List.append_nil] at this
      exact ⟨this, hframed, hnull⟩
    · rintro ⟨hrest, hframed, hnull⟩
      rw [← List.append_nil v.octets] at hrest
      obtain ⟨c', hstep, hrest', -⟩ := Cursor.exists_step hrest
      exact ⟨c', ⟨hstep, hframed, hnull⟩, hrest'⟩

theorem length_id_le (a : Algorithm) : a.id.content.length ≤ a.content.length := by
  simp only [content, Write.oid, Write.element, List.length_append, List.length_cons]
  omega

theorem framed_parameters {a : Algorithm} (h : a.content.length < UInt32.size) :
    ∀ v ∈ a.parameters, v.Framed := by
  intro v hv
  have hle : v.octets.length ≤ a.content.length := by
    rw [content, Option.mem_def.mp hv, List.length_append, parametersOctets]
    omega
  exact Value.framed_of_length (by omega)

/-- The parts of the algorithm `a` can be told from `a.content`. -/
theorem content_inj {a b : Algorithm} (hlen : a.content.length < UInt32.size)
    (h : a.content = b.content) : a = b := by
  have hlen' := hlen
  rw [h] at hlen'
  have hframed := framed_parameters hlen
  have hframed' := framed_parameters hlen'
  obtain ⟨id, ps⟩ := a
  obtain ⟨id', ps'⟩ := b
  obtain ⟨hcontent, hps⟩ := Write.element_append_inj_of_length (by decide) hlen h
  obtain rfl := Oid.content_inj.mp hcontent
  have hps : parametersOctets ps ++ [] = parametersOctets ps' ++ [] := congrArg (· ++ []) hps
  cases ps with
  | none =>
    cases ps' with
    | none => rfl
    | some w => exact absurd (by simpa [parametersOctets] using hps.symm) (Write.octets_ne_nil w)
  | some v =>
    cases ps' with
    | none => exact absurd (by simpa [parametersOctets] using hps) (Write.octets_ne_nil v)
    | some w =>
      obtain ⟨rfl, -⟩ := Value.octets_append_inj (hframed v rfl) (hframed' w rfl) hps
      rfl

/-- Parameters that are absent (`none`) are written differently from any that are there. -/
theorem octets_none_ne_some (id : Oid) (v : Value) :
    octets ⟨id, none⟩ ≠ octets ⟨id, some v⟩ := by
  intro h
  rw [octets_eq, octets_eq] at h
  have hparameters := List.append_cancel_left (Write.content_of_element h)
  exact Write.octets_ne_nil v hparameters.symm

/-- **Algorithms.** `v` is read as `a` exactly where it is what is written for `a`. -/
theorem ofValue_eq_ok {limits : Limits} {v : Value} {a : Algorithm} (hv : v.Framed) :
    ofValue limits v = .ok a ↔ v = a.value ∧ a.Readable := by
  simp only [ofValue, ite_error_eq_ok, bind_eq_ok, pure_eq_ok, Prod.exists, Value.is_iff,
    Cursor.oid_eq_ok, Cursor.finish_eq_ok, Value.cursor]
  constructor
  · rintro ⟨hseq, id, c₁, ⟨hid, -⟩, ps, c₂, hps, _, hrest, rfl⟩
    obtain ⟨hps, -, hnull⟩ := readParameters_finish.mp ⟨c₂, hps, hrest⟩
    refine ⟨?_, hnull⟩
    rw [hseq, ← Cursor.rest_ofBuffer v.content limits, hid.rest, hps]
    rfl
  · rintro ⟨rfl, hnull⟩
    have hlen : a.content.length < UInt32.size := hv
    have hid := a.length_id_le
    obtain ⟨c₁, hstep, hrest, -⟩ := Cursor.exists_step (Cursor.rest_ofBuffer a.content limits)
    obtain ⟨c₂, hps, hfinish⟩ := readParameters_finish.mpr ⟨hrest, framed_parameters hlen, hnull⟩
    exact ⟨rfl, a.id, c₁, ⟨hstep, by omega⟩, a.parameters, c₂, hps, (), hfinish, rfl⟩

/-- The next element at `c` is read as `a` exactly where it is what is written for `a`. -/
theorem read_eq_ok {c c' : Cursor} {a : Algorithm} :
    read c = .ok (a, c') ↔
      c.Step a.octets c' ∧ a.content.length < UInt32.size ∧ a.Readable := by
  simp only [read, bind_eq_ok, pure_eq_ok, Prod.exists,
    Cursor.expect_eq_ok (show Value.Short Tag.sequence by decide), Prod.mk.injEq, octets_eq]
  constructor
  · rintro ⟨v, c₁, ⟨-, hstep, hframed⟩, _, ha, rfl, rfl⟩
    obtain ⟨rfl, hread⟩ := (ofValue_eq_ok hframed).mp ha
    exact ⟨hstep, hframed, hread⟩
  · rintro ⟨hstep, hlen, hread⟩
    have hframed : a.value.Framed := hlen
    refine ⟨a.value, c', ⟨rfl, hstep, hframed⟩, a, ?_, rfl, rfl⟩
    exact (ofValue_eq_ok hframed).mpr ⟨rfl, hread⟩

end Pkix.Algorithm
