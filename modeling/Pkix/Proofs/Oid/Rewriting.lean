import Pkix.Proofs.Oid.Narrow

/-!
# Identifiers that certificate structures give

The content octets of an identifier in a certificate structure need not be the shortest ones: an arc
may begin with idle groups, and what five groups hold above the 32nd bit is lost. The shortest ones
are no more than they are, so a structure takes these too, unless they are now too few.

* `Oid.NarrowArc`: an arc as a structure gives it.
* `Oid.exists_of_narrowArcsFrom`: arcs that are read are such, and take no more octets again.
* `Oid.narrowArcsFrom_flatMap_eq`: such arcs are read from their shortest groups.
* `Oid.ofNarrow?_content_eq_some_iff`: when a structure takes an identifier again.
-/

namespace Pkix

namespace Base128

/-- One more group than `count` is seven more bits. -/
theorem shiftLeft_group (count : Nat) : 1 <<< (7 * (count + 1)) = 1 <<< (7 * count) * 128 := by
  rw [Nat.mul_add, Nat.shiftLeft_add, Nat.shiftLeft_eq _ (7 * 1)]

theorem length_leading_le {n count : Nat} (h : n < 1 <<< (7 * count)) :
    (leading n).length ≤ count := by
  induction count generalizing n with
  | zero =>
    rw [Nat.lt_one_iff.mp h, leading_zero]
    exact Nat.le_refl 0
  | succ count ih =>
    by_cases h0 : n = 0
    · rw [h0, leading_zero]
      exact Nat.zero_le _
    · rw [shiftLeft_group] at h
      have := ih (n := n / 128) (by omega)
      rw [leading_of_ne_zero h0, List.length_append, List.length_singleton]
      omega

theorem length_encode_le {n count : Nat} (h : n < 1 <<< (7 * (count + 1))) :
    (encode n).length ≤ count + 1 := by
  rw [shiftLeft_group] at h
  have : (leading (n / 128)).length ≤ count := length_leading_le (by omega)
  rw [encode, List.length_append, List.length_singleton]
  omega

theorem encode_of_lt {n : Nat} (h : n < 128) : encode n = [UInt8.ofNat n] := by
  rw [encode, Nat.div_eq_of_lt h, leading_zero, Nat.mod_eq_of_lt h, List.nil_append]

end Base128

namespace Oid

variable {b : Bytes} {done arcs : List Nat} {n : Nat} {id : Oid}

/-- An arc `n` as a certificate structure gives it: of 32 bits, and with a small last group where it
takes five. -/
def NarrowArc (n : Nat) : Prop := n < UInt32.size ∧ (n < 1 <<< 28 ∨ n % 128 < 16)

/-! ## Reading -/

/-- Arcs `ns` that are read, `size` octets of the first of them before, take no more octets
again. -/
theorem exists_of_narrowArcsFrom {size acc : Nat} (hacc : acc < 1 <<< (7 * size))
    (h : narrowArcsFrom size acc b done = some arcs) :
    ∃ ns, arcs = done.reverse ++ ns ∧ (∀ n ∈ ns, NarrowArc n) ∧
      (ns.flatMap Base128.encode).length ≤ size + b.length := by
  induction b generalizing size acc done with
  | nil =>
    rw [narrowArcsFrom, Option.ite_none_right_eq_some, Option.some.injEq] at h
    exact ⟨[], by simpa using h.2.symm, List.forall_mem_nil _, Nat.zero_le _⟩
  | cons x rest ih =>
    rw [narrowArcsFrom, Option.ite_none_left_eq_some] at h
    obtain ⟨hroom, h⟩ := h
    rw [UInt8.le_iff_toNat_le, show (0x10 : UInt8).toNat = 16 from rfl] at hroom
    have hn : (acc * 128 + x.toNat % 128) % UInt32.size < 1 <<< (7 * (size + 1)) := by
      refine Nat.lt_of_le_of_lt (Nat.mod_le _ _) ?_
      rw [Base128.shiftLeft_group]
      omega
    have hsize : (acc * 128 + x.toNat % 128) % UInt32.size < UInt32.size :=
      Nat.mod_lt _ (by decide)
    have hlast : (acc * 128 + x.toNat % 128) % UInt32.size % 128 = x.toNat % 128 := by
      rw [UInt32.size]
      omega
    generalize (acc * 128 + x.toNat % 128) % UInt32.size = n at h hn hsize hlast
    split at h
    · obtain ⟨ns, rfl, hns, hlength⟩ := ih (by decide) h
      have hencode := Base128.length_encode_le hn
      have harc : NarrowArc n := by
        refine ⟨hsize, ?_⟩
        by_cases hfour : size < 4
        · have hle : 1 <<< (7 * (size + 1)) ≤ 1 <<< (7 * 4) := by
            rw [Nat.one_shiftLeft, Nat.one_shiftLeft]
            exact Nat.pow_le_pow_right (by decide) (by omega)
          exact .inl (Nat.lt_of_lt_of_le hn hle)
        · exact .inr (by omega)
      refine ⟨n :: ns, by simp, List.forall_mem_cons.mpr ⟨harc, hns⟩, ?_⟩
      rw [List.flatMap_cons, List.length_append, List.length_cons]
      omega
    · obtain ⟨ns, rfl, hns, hlength⟩ := ih hn h
      exact ⟨ns, rfl, hns, by rw [List.length_cons]; omega⟩

/-- The arcs of an identifier `id` that is read: the first octet has two of them, and the shortest
groups of the others fit in 38 octets. -/
theorem exists_of_ofNarrow? (h : ofNarrow? b = some id) :
    ∃ first ns, first < 120 ∧ id.arcs = first / 40 :: first % 40 :: ns ∧
      (∀ n ∈ ns, NarrowArc n) ∧ (ns.flatMap Base128.encode).length ≤ 38 := by
  obtain ⟨arcs, harcs, hid⟩ := Option.bind_eq_some_iff.mp h
  have harcs' : id.arcs = arcs := by
    have hid := toOption_eq_some.mp hid
    unfold ofArcs at hid
    split at hid
    · cases hid
      rfl
    · split at hid <;> cases hid
  cases b with
  | nil => cases harcs
  | cons first rest =>
    rw [narrowArcs?, Option.ite_none_left_eq_some, Option.map_eq_some_iff] at harcs
    obtain ⟨hrange, ns, hns, rfl⟩ := harcs
    obtain ⟨ns, rfl, hnarrow, hlength⟩ := exists_of_narrowArcsFrom (by decide) hns
    rw [List.length_cons, UInt8.le_iff_toNat_le, show (120 : UInt8).toNat = 120 from rfl] at hrange
    exact ⟨first.toNat, ns, by omega, harcs', hnarrow, by omega⟩

/-- The arcs of an identifier `id` that is read fit 32 bits. -/
theorem lt_of_ofNarrow? (h : ofNarrow? b = some id) : ∀ a ∈ id.arcs, a < UInt32.size := by
  obtain ⟨first, ns, hfirst, harcs, hns, -⟩ := exists_of_ofNarrow? h
  rw [harcs, UInt32.size]
  simp only [List.forall_mem_cons]
  exact ⟨by omega, by omega, fun n hn => (hns n hn).1⟩

/-! ## Reading again -/

/-- All groups but the last of a small number `n` leave the reader with that number. -/
theorem narrowArcsFrom_leading_eq (hn : n < 1 <<< 28) :
    narrowArcsFrom 0 0 (Base128.leading n ++ b) done =
      narrowArcsFrom (Base128.leading n).length n b done := by
  induction n using Nat.strongRecOn generalizing b with
  | ind n ih =>
    by_cases h0 : n = 0
    · rw [h0, Base128.leading_zero]
      rfl
    · have hcount : (Base128.leading (n / 128)).length ≤ 3 :=
        Base128.length_leading_le (by omega)
      have hx : (UInt8.ofNat (n % 128 + 128)).toNat = n % 128 + 128 :=
        UInt8.toNat_ofNat_of_lt' (show _ < 256 by omega)
      have hhigh : ¬UInt8.ofNat (n % 128 + 128) < 0x80 := by
        rw [octet_lt_0x80, hx]
        omega
      have hacc : (n / 128 * 128 + (n % 128 + 128) % 128) % UInt32.size = n := by
        rw [UInt32.size]
        omega
      rw [Base128.leading_of_ne_zero h0, List.append_assoc, ih (n / 128) (by omega) (by omega),
        List.singleton_append, narrowArcsFrom, if_neg (by omega), List.length_append,
        List.length_singleton]
      simp only [if_neg hhigh, hx, hacc]

/-- An arc `n` of a certificate structure is read from its shortest groups. -/
theorem narrowArcsFrom_encode_eq (hn : NarrowArc n) :
    narrowArcsFrom 0 0 (Base128.encode n ++ b) done = narrowArcsFrom 0 0 b (n :: done) := by
  obtain ⟨hsize, hlast⟩ := hn
  rw [UInt32.size] at hsize
  have hx : (UInt8.ofNat (n % 128)).toNat = n % 128 :=
    UInt8.toNat_ofNat_of_lt' (show _ < 256 by omega)
  have hlow : UInt8.ofNat (n % 128) < 0x80 := by
    rw [octet_lt_0x80, hx]
    omega
  have hacc : (n / 128 * 128 + n % 128 % 128) % UInt32.size = n := by
    rw [UInt32.size]
    omega
  have hroom : ¬(4 ≤ (Base128.leading (n / 128)).length ∧ 0x10 ≤ UInt8.ofNat (n % 128)) := by
    rw [UInt8.le_iff_toNat_le, hx, show (0x10 : UInt8).toNat = 16 from rfl]
    rintro ⟨hfour, hbig⟩
    have : (Base128.leading (n / 128)).length ≤ 3 := Base128.length_leading_le (by omega)
    omega
  rw [Base128.encode, List.append_assoc, narrowArcsFrom_leading_eq (by omega),
    List.singleton_append, narrowArcsFrom, if_neg hroom]
  simp only [if_pos hlow, hx, hacc]

/-- So are arcs that follow one another, `ns`. -/
theorem narrowArcsFrom_flatMap_eq {ns : List Nat} (h : ∀ n ∈ ns, NarrowArc n) :
    narrowArcsFrom 0 0 (ns.flatMap Base128.encode) done = some (done.reverse ++ ns) := by
  induction ns generalizing done with
  | nil => simp [narrowArcsFrom]
  | cons n ns ih =>
    obtain ⟨hn, hns⟩ := List.forall_mem_cons.mp h
    rw [List.flatMap_cons, narrowArcsFrom_encode_eq hn, ih hns, List.reverse_cons,
      List.append_assoc, List.singleton_append]

/-- Nothing is read from octets `b` that are two or fewer. -/
theorem le_length_of_ofNarrow? (h : ofNarrow? b = some id) : 3 ≤ b.length := by
  obtain ⟨arcs, harcs, -⟩ := Option.bind_eq_some_iff.mp h
  cases b with
  | nil => cases harcs
  | cons first rest =>
    rw [narrowArcs?, Option.ite_none_left_eq_some] at harcs
    omega

/-- **Identifiers again.** An identifier `id` that a certificate structure gives is read from its
shortest content octets, if these are not too few. -/
theorem ofNarrow?_content_eq_some_iff (h : ofNarrow? b = some id) :
    ofNarrow? id.content = some id ↔ 3 ≤ id.content.length := by
  refine ⟨le_length_of_ofNarrow?, fun hlength => ?_⟩
  obtain ⟨first, ns, hfirst, harcs, hns, hfit⟩ := exists_of_ofNarrow? h
  have hjoin : joinLeading (first / 40) (first % 40) = first := by
    rw [joinLeading]
    omega
  have hcontent : id.content = UInt8.ofNat first :: ns.flatMap Base128.encode := by
    rw [content, harcs]
    simp only [hjoin, List.flatMap_cons, Base128.encode_of_lt (show first < 128 by omega),
      List.singleton_append]
  have hx : (UInt8.ofNat first).toNat = first :=
    UInt8.toNat_ofNat_of_lt' (show _ < 256 by omega)
  have hshort : ¬(120 ≤ UInt8.ofNat first ∨ id.content.length < 3 ∨ 39 < id.content.length) := by
    rw [UInt8.le_iff_toNat_le, hx, show (120 : UInt8).toNat = 120 from rfl]
    rw [hcontent, List.length_cons] at hlength ⊢
    omega
  rw [hcontent] at hshort
  rw [ofNarrow?, hcontent, narrowArcs?, if_neg hshort, narrowArcsFrom_flatMap_eq hns, hx]
  simp only [List.reverse_nil, List.nil_append, Option.map_some, Option.bind_some, ← harcs, ofArcs,
    dif_pos id.valid]
  rfl

end Oid

end Pkix
