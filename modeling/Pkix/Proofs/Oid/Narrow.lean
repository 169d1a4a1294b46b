import Pkix.Oid.Narrow
import Pkix.Proofs.Except
import Pkix.Proofs.Oid

/-!
# What becomes of identifiers in certificate structures

A certificate structure takes an arc of up to 35 bits and keeps 32 of them, so an identifier that it
takes need not be the one that it gives back.

* `Oid.narrowArcsFrom_flatMap_encode`: numbers are kept modulo 2 ^ 32.
* `Oid.arcs_of_ofNarrow?`: so are the arcs of an identifier.
* `Oid.eq_iff_of_arcs`: that keeps an identifier exactly where its arcs fit 32 bits.
-/

namespace Pkix

namespace Base128

/-- All groups of `n` but the last one have the high bit set. -/
theorem le_of_mem_leading {n : Nat} : ∀ x ∈ leading n, 128 ≤ x.toNat := by
  induction n using Nat.strongRecOn with
  | ind n ih =>
    by_cases h : n = 0
    · rw [h, leading_zero]
      exact nofun
    · rw [leading_of_ne_zero h]
      intro x hx
      obtain hx | hx := List.mem_append.mp hx
      · exact ih (n / 128) (by omega) x hx
      · rw [List.mem_singleton.mp hx, UInt8.toNat_ofNat_of_lt' (show _ < 256 by omega)]
        omega

/-- A number `n` whose groups begin below the high bit has no other group. -/
theorem eq_of_encode_append {n : Nat} {x : UInt8} {b rest : Bytes}
    (h : encode n ++ b = x :: rest) (hx : x.toNat < 128) : n = x.toNat ∧ b = rest := by
  unfold encode at h
  cases hleading : leading (n / 128) with
  | nil =>
    have hn : n / 128 = 0 := by
      by_contra hne
      rw [leading_of_ne_zero hne] at hleading
      simp at hleading
    rw [hleading, List.nil_append, List.singleton_append, List.cons.injEq] at h
    obtain ⟨rfl, rfl⟩ := h
    rw [UInt8.toNat_ofNat_of_lt' (show _ < 256 by omega)]
    exact ⟨by omega, rfl⟩
  | cons y ys =>
    rw [hleading, List.cons_append, List.cons_append, List.cons.injEq] at h
    have hy : y ∈ leading (n / 128) := hleading ▸ List.mem_cons_self
    have := le_of_mem_leading y hy
    rw [h.1] at this
    omega

end Base128

namespace Oid

variable {b : Bytes} {done arcs : List Nat} {n : Nat} {id id' : Oid}

/-- Behind all groups of `n` but the last, the number so far is kept modulo `2 ^ 32`. -/
theorem narrowArcsFrom_leading (h : narrowArcsFrom 0 0 (Base128.leading n ++ b) done = some arcs) :
    narrowArcsFrom (Base128.leading n).length (n % UInt32.size) b done = some arcs := by
  induction n using Nat.strongRecOn generalizing b with
  | ind n ih =>
    by_cases h0 : n = 0
    · rw [h0, Base128.leading_zero] at h ⊢
      exact h
    · rw [Base128.leading_of_ne_zero h0, List.append_assoc] at h
      have hstep := ih (n / 128) (by omega) h
      have hx : (UInt8.ofNat (n % 128 + 128)).toNat = n % 128 + 128 :=
        UInt8.toNat_ofNat_of_lt' (show _ < 256 by omega)
      have hhigh : ¬UInt8.ofNat (n % 128 + 128) < 0x80 := by
        rw [octet_lt_0x80, hx]
        omega
      have hacc : (n / 128 % UInt32.size * 128 + (n % 128 + 128) % 128) % UInt32.size =
          n % UInt32.size := by
        rw [UInt32.size]
        omega
      rw [List.singleton_append, narrowArcsFrom, Option.ite_none_left_eq_some] at hstep
      simp only [if_neg hhigh, hx, hacc] at hstep
      rw [Base128.leading_of_ne_zero h0, List.length_append, List.length_singleton]
      exact hstep.2

/-- An arc `n` is kept modulo `2 ^ 32`. -/
theorem narrowArcsFrom_encode (h : narrowArcsFrom 0 0 (Base128.encode n ++ b) done = some arcs) :
    narrowArcsFrom 0 0 b (n % UInt32.size :: done) = some arcs := by
  rw [Base128.encode, List.append_assoc] at h
  have hstep := narrowArcsFrom_leading h
  have hx : (UInt8.ofNat (n % 128)).toNat = n % 128 :=
    UInt8.toNat_ofNat_of_lt' (show _ < 256 by omega)
  have hlow : UInt8.ofNat (n % 128) < 0x80 := by
    rw [octet_lt_0x80, hx]
    omega
  have hacc : (n / 128 % UInt32.size * 128 + n % 128 % 128) % UInt32.size = n % UInt32.size := by
    rw [UInt32.size]
    omega
  rw [List.singleton_append, narrowArcsFrom, Option.ite_none_left_eq_some] at hstep
  simp only [if_pos hlow, hx, hacc] at hstep
  exact hstep.2

/-- Arcs that follow one another, `ns`, are kept modulo `2 ^ 32`. -/
theorem narrowArcsFrom_flatMap_encode {ns : List Nat}
    (h : narrowArcsFrom 0 0 (ns.flatMap Base128.encode) done = some arcs) :
    arcs = done.reverse ++ ns.map (· % UInt32.size) := by
  induction ns generalizing done with
  | nil =>
    rw [List.flatMap_nil, narrowArcsFrom, if_pos rfl, Option.some.injEq] at h
    simpa using h.symm
  | cons n ns ih =>
    rw [List.flatMap_cons] at h
    have := ih (narrowArcsFrom_encode h)
    simpa using this

/-- The arcs of an identifier `id` that is taken are kept modulo `2 ^ 32`. -/
theorem arcs_of_narrowArcs? (h : narrowArcs? id.content = some arcs) :
    arcs = id.arcs.map (· % UInt32.size) := by
  obtain ⟨ids, valid⟩ := id
  match ids, valid with
  | root :: child :: rest, valid =>
    have hvalid := valid
    simp only [wellFormed, leadingOk, Bool.and_eq_true, Bool.or_eq_true, decide_eq_true_eq,
      beq_iff_eq] at hvalid
    obtain ⟨hlead, -⟩ := hvalid
    simp only [content, List.flatMap_cons] at h
    unfold narrowArcs? at h
    split at h
    · cases h
    · rename_i first tail hfirst
      rw [Option.ite_none_left_eq_some, Option.map_eq_some_iff] at h
      obtain ⟨hshort, ns, hns, rfl⟩ := h
      rw [not_or, UInt8.not_le, UInt8.lt_iff_toNat_lt, show (120 : UInt8).toNat = 120 from rfl]
        at hshort
      -- an octet below 120 has no high bit, so it is all of the joined number
      obtain ⟨hjoin, rfl⟩ := Base128.eq_of_encode_append hfirst (by omega)
      rw [narrowArcsFrom_flatMap_encode hns, ← hjoin, joinLeading, List.reverse_nil,
        List.nil_append, List.map_cons, List.map_cons, UInt32.size]
      rw [joinLeading] at hjoin
      congr 1
      · omega
      · congr 1
        omega

/-- **Narrowing.** The arcs of an identifier `id` that a certificate structure takes are kept modulo
`2 ^ 32`. -/
theorem arcs_of_ofNarrow? (h : ofNarrow? id.content = some id') :
    id'.arcs = id.arcs.map (· % UInt32.size) := by
  obtain ⟨arcs, harcs, hid⟩ := Option.bind_eq_some_iff.mp h
  have hid := toOption_eq_some.mp hid
  unfold ofArcs at hid
  split at hid
  · cases hid
    exact arcs_of_narrowArcs? harcs
  · split at hid <;> cases hid

/-- That keeps `id` exactly where its arcs fit 32 bits. -/
theorem eq_iff_of_arcs (h : id'.arcs = id.arcs.map (· % UInt32.size)) :
    id' = id ↔ ∀ a ∈ id.arcs, a < UInt32.size := by
  constructor
  · rintro rfl a ha
    rw [h] at ha
    obtain ⟨a, -, rfl⟩ := List.mem_map.mp ha
    exact Nat.mod_lt _ (by decide)
  · intro hlt
    apply ext_arcs
    rw [h]
    exact (List.map_congr_left fun a ha => Nat.mod_eq_of_lt (hlt a ha)).trans (List.map_id _)

end Oid

end Pkix
