import Pkix.Crl.Basic
import Pkix.Proofs.Der.Elements

/-!
# Whole structures are the encoding of one element

* `Reader.bind_eq_some`, `Reader.next_eq_some` and so on: what a reader that succeeded did.
* `Reader.of_next_element`, `Reader.of_optional_element`, `Reader.mapM_of_listOf`: what it reads of
  elements that were written. `Reader.next_of_element`: and that it does.
* `Reader.exists_of_whole_next`: octets that a reader of one element uses up are an encoding.
* `Certificate.exists_value`, `Crl.exists_value`: so are certificates and revocation lists.
* `Certificate.exists_content`, `Crl.exists_content`: they are SEQUENCEs.
* `Certificate.ofOctets_eq_ok`, `Crl.ofOctets_eq_ok`: reading keeps the octets.
-/

namespace Pkix

open Der

namespace Der.Reader

variable {α β : Type} {b rest : Bytes}

/-! ## Steps of a reader -/

theorem element_eq_some {v : Value} (h : element b = some (v, rest)) :
    v.Framed ∧ b = v.octets ++ rest := by
  unfold element at h
  split at h
  · cases h
  · split at h
    · split at h
      · rename_i hv
        cases h
        obtain ⟨hpre, hframed⟩ := Value.first_eq_ok.mp hv
        refine ⟨hframed, ?_⟩
        rw [← Value.length_octets]
        exact List.prefix_iff_eq_append.mp hpre |>.symm
      · cases h
    · cases h

theorem bind_eq_some {r : Reader α} {f : α → Reader β} {y : β} :
    (r >>= f) b = some (y, rest) ↔ ∃ x left, r b = some (x, left) ∧ f x left = some (y, rest) := by
  simp only [bind, StateT.bind, Option.bind_eq_some_iff, Prod.exists]

theorem pure_eq_some {x y : α} :
    (pure x : Reader α) b = some (y, rest) ↔ x = y ∧ b = rest := by
  show some (x, b) = some (y, rest) ↔ _
  rw [Option.some.injEq, Prod.mk.injEq]

theorem whole_eq_some {r : Reader α} {x : α} : whole r b = some x ↔ r b = some (x, []) := by
  unfold whole
  split
  · rename_i h
    simp [h]
  · rename_i h
    simp only [false_iff, reduceCtorEq]
    exact fun hr => h x hr

theorem lift_eq_some {o : Option α} {x : α} :
    (StateT.lift o : Reader α) b = some (x, rest) ↔ o = some x ∧ b = rest := by
  cases o <;> simp [StateT.lift]

theorem next_eq_some {read : Value → Option α} {x : α} :
    next read b = some (x, rest) ↔ ∃ v, element b = some (v, rest) ∧ read v = some x := by
  rw [next, bind_eq_some]
  simp only [lift_eq_some]
  constructor
  · rintro ⟨v, left, hv, hx, rfl⟩
    exact ⟨v, hv, hx⟩
  · rintro ⟨v, hv, hx⟩
    exact ⟨v, rest, hv, hx, rfl⟩

theorem within_eq_some {tag : UInt8} {r : Reader α} {v : Value} {x : α} :
    within tag r v = some x ↔ v.is tag = true ∧ r v.content = some (x, []) := by
  unfold within
  split
  · rename_i h
    simp [h, whole_eq_some]
  · rename_i h
    simp [h]

theorem sequence_eq_some {r : Reader α} {v : Value} {x : α} :
    sequence r v = some x ↔ v.is Tag.sequence = true ∧ r v.content = some (x, []) :=
  within_eq_some

/-- Octets `b` that `next read` uses up are the encoding of one element `v`. -/
theorem exists_of_whole_next {read : Value → Option α} {x : α}
    (h : whole (next read) b = some x) :
    ∃ v : Value, v.Framed ∧ b = v.octets ∧ read v = some x := by
  obtain ⟨v, hv, hread⟩ := next_eq_some.mp (whole_eq_some.mp h)
  obtain ⟨hframed, hb⟩ := element_eq_some hv
  exact ⟨v, hframed, by simpa using hb, hread⟩

/-- The element `v` that was written is what `next read` reads. -/
theorem of_next_octets {read : Value → Option α} {v : Value} {x : α} (hv : v.Framed)
    (h : next read (v.octets ++ b) = some (x, rest)) : read v = some x ∧ rest = b := by
  obtain ⟨w, hw, hread⟩ := next_eq_some.mp h
  obtain ⟨hframed, heq⟩ := element_eq_some hw
  obtain ⟨rfl, rfl⟩ := Value.octets_append_inj hv hframed heq
  exact ⟨hread, rfl⟩

/-- The same for `content` under the octet `tag`. -/
theorem of_next_element {read : Value → Option α} {tag : UInt8} {content : Bytes} {x : α}
    (htag : Value.Short tag) (hlen : content.length < UInt32.size)
    (h : next read (Write.element tag content ++ b) = some (x, rest)) :
    read (Value.ofOctet tag content) = some x ∧ rest = b := by
  rw [← Value.octets_ofOctet htag] at h
  exact of_next_octets hlen h

/-- An element that may stand in a structure (`allowed tag`) is read where it was written. -/
theorem next_of_element {read : Value → Option α} {tag : UInt8} {content : Bytes} {x : α}
    (htag : Value.Short tag) (hallowed : allowed tag = true) (hlen : content.length < UInt32.size)
    (hread : read (Value.ofOctet tag content) = some x) :
    next read (Write.element tag content ++ b) = some (x, b) := by
  have hoctets := Value.octets_ofOctet htag content
  have hfirst : Value.first (Write.element tag content ++ b) = .ok (Value.ofOctet tag content) :=
    Value.first_eq_ok.mpr ⟨hoctets ▸ List.prefix_append _ b, hlen⟩
  refine next_eq_some.mpr ⟨Value.ofOctet tag content, ?_, hread⟩
  rw [Write.element, List.cons_append] at hfirst ⊢
  rw [element, if_pos hallowed, hfirst, ← List.cons_append, ← Write.element]
  dsimp only
  rw [← Value.length_octets, hoctets, List.drop_left]

/-- A field that may be missing is missing where another tag octet comes next in `b`. -/
theorem of_optional_other {is : UInt8 → Bool} {read : Value → Option α} {o : Option α}
    (hother : ∀ x ∈ b.head?, is x = false) (h : optional is read b = some (o, rest)) :
    o = none ∧ rest = b := by
  unfold optional at h
  split at h
  · cases h
    exact ⟨rfl, rfl⟩
  · rename_i x tail
    rw [hother x rfl] at h
    split at h
    · cases h
    · cases h
      exact ⟨rfl, rfl⟩

/-- It is there where an element with its octet, `tag`, was written. -/
theorem of_optional_element {is : UInt8 → Bool} {read : Value → Option α} {tag : UInt8}
    {content : Bytes} {o : Option α} (htag : Value.Short tag) (his : is tag = true)
    (hlen : content.length < UInt32.size)
    (h : optional is read (Write.element tag content ++ b) = some (o, rest)) :
    (∃ x, o = some x ∧ read (Value.ofOctet tag content) = some x) ∧ rest = b := by
  rw [Write.element, List.cons_append] at h
  unfold optional at h
  simp only [his, if_true] at h
  split at h
  · cases h
  · rw [← List.cons_append, ← Write.element, Option.map_eq_some_iff] at h
    obtain ⟨⟨x, left⟩, hx, heq⟩ := h
    cases heq
    obtain ⟨hread, rfl⟩ := of_next_element htag hlen hx
    exact ⟨⟨x, rfl, hread⟩, rfl⟩

theorem elementsFrom_eq_some {done vs : List Value} (h : elementsFrom done b = some vs) :
    ∃ ws, vs = done.reverse ++ ws ∧ b = Write.values ws ∧ ∀ w ∈ ws, w.Framed := by
  fun_induction elementsFrom done b with
  | case1 done => exact ⟨[], by simpa using h.symm, rfl, fun _ hw => nomatch hw⟩
  | case2 => cases h
  | case3 done b hne v rest hv hlt ih =>
    obtain ⟨ws, rfl, rfl, hws⟩ := ih h
    obtain ⟨hframed, rfl⟩ := element_eq_some hv
    exact ⟨v :: ws, by simp, (Write.values_cons v ws).symm,
      List.forall_mem_cons.mpr ⟨hframed, hws⟩⟩

/-- Whatever is in a list `xs` that is read was read of some value of `vs`. -/
theorem exists_of_mapM {read : Value → Option α} {vs : List Value} {xs : List α}
    (h : vs.mapM read = some xs) : ∀ x ∈ xs, ∃ v ∈ vs, read v = some x := by
  induction vs generalizing xs with
  | nil =>
    cases h
    exact fun x hx => nomatch hx
  | cons v vs ih =>
    simp only [List.mapM_cons, bind, Option.bind_eq_some_iff, pure, Option.some.injEq] at h
    obtain ⟨y, hy, ys, hys, rfl⟩ := h
    refine List.forall_mem_cons.mpr ⟨⟨v, List.mem_cons_self, hy⟩, fun x hx => ?_⟩
    obtain ⟨w, hw, hread⟩ := ih hys x hx
    exact ⟨w, List.mem_cons_of_mem _ hw, hread⟩

/-- A list `xs` is read from the elements `vs` that were written. -/
theorem mapM_of_listOf {read : Value → Option α} {vs : List Value} {xs : List α}
    (hvs : ∀ v ∈ vs, v.Framed)
    (h : listOf read (Value.ofOctet Tag.sequence (Write.values vs)) = some xs) :
    vs.mapM read = some xs := by
  unfold listOf each at h
  split at h
  · obtain ⟨us, hus, hread⟩ := Option.bind_eq_some_iff.mp h
    obtain ⟨ws, rfl, hvalues, hws⟩ := elementsFrom_eq_some hus
    obtain rfl := Write.values_inj hvs hws hvalues
    exact hread
  · cases h

end Der.Reader

/-- Octets `b` that are read as a SEQUENCE are one, of some `content`. -/
theorem Der.Reader.exists_content_of_whole {α : Type} {r : Reader α} {b : Bytes} {x : α}
    (h : Reader.whole (Reader.next (Reader.sequence r)) b = some x) :
    ∃ content, b = Write.element Tag.sequence content := by
  obtain ⟨v, -, rfl, hread⟩ := Reader.exists_of_whole_next h
  refine ⟨v.content, ?_⟩
  rw [← Value.octets_ofOctet (by decide), ← Value.is_iff.mp (Reader.sequence_eq_some.mp hread).1]

theorem Certificate.exists_value (c : Certificate) :
    ∃ v : Value, v.Framed ∧ c.octets = v.octets :=
  have ⟨v, hframed, hoctets, _⟩ := Reader.exists_of_whole_next c.layout_eq
  ⟨v, hframed, hoctets⟩

theorem Crl.exists_value (c : Crl) : ∃ v : Value, v.Framed ∧ c.octets = v.octets :=
  have ⟨v, hframed, hoctets, _⟩ := Reader.exists_of_whole_next c.layout_eq
  ⟨v, hframed, hoctets⟩

theorem Certificate.exists_content (c : Certificate) :
    ∃ content, c.octets = Write.element Tag.sequence content :=
  Reader.exists_content_of_whole c.layout_eq

theorem Crl.exists_content (c : Crl) : ∃ content, c.octets = Write.element Tag.sequence content :=
  Reader.exists_content_of_whole c.layout_eq

/-- Certificates `c` are read from their octets. -/
theorem Certificate.ofOctets_eq_ok {b : Bytes} {c : Certificate} :
    Certificate.ofOctets b = .ok c ↔ b = c.octets := by
  unfold Certificate.ofOctets
  split
  · rename_i layout h
    rw [Except.ok.injEq]
    constructor
    · rintro rfl
      rfl
    · rintro rfl
      exact Certificate.ext_octets rfl
  · rename_i h
    constructor
    · intro hc
      cases hc
    · rintro rfl
      rw [c.layout_eq] at h
      cases h

/-- Revocation lists `c` are read from their octets. -/
theorem Crl.ofOctets_eq_ok {b : Bytes} {c : Crl} :
    Crl.ofOctets b = .ok c ↔ b = c.octets := by
  unfold Crl.ofOctets
  split
  · rename_i layout h
    rw [Except.ok.injEq]
    constructor
    · rintro rfl
      rfl
    · rintro rfl
      exact Crl.ext_octets rfl
  · rename_i h
    constructor
    · intro hc
      cases hc
    · rintro rfl
      rw [c.layout_eq] at h
      cases h

end Pkix
