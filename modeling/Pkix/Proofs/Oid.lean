import Pkix.Oid.Codec
import Pkix.Proofs.Base128

/-!
# Content octets of object identifiers

* `Oid.ofContent_eq_ok`: octets are read as an identifier exactly where they are its content.
* `Oid.content_inj`: identifiers with the same content octets are the same.
-/

namespace Pkix.Oid

theorem encode_eq_ok {n : Nat} {b : Bytes} (h : n < UInt64.size) :
    Base128.decode UInt64.size (Base128.encode n ++ b) = .ok (n, b) :=
  (Base128.decode_eq_ok (by decide)).mpr ⟨rfl, h⟩

theorem numbers_of_fault {b : Bytes} {done : List Nat} {fault : Base128.Fault} (hb : b ≠ [])
    (h : Base128.decode UInt64.size b = .error fault) :
    numbers b done = .error (.malformed (faultCause fault)) := by
  rw [numbers, if_neg hb]
  split <;> simp_all

theorem numbers_of_number {b rest : Bytes} {done : List Nat} {n : Nat} (hb : b ≠ [])
    (h : Base128.decode UInt64.size b = .ok (n, rest)) :
    numbers b done = numbers rest (n :: done) := by
  rw [numbers, if_neg hb]
  split <;> simp_all

/-- The numbers that are read from `b`, `ms`, are those whose encodings follow one another. -/
theorem exists_of_numbers {b : Bytes} {done ns : List Nat} (h : numbers b done = .ok ns) :
    ∃ ms, ns = done.reverse ++ ms ∧ b = ms.flatMap Base128.encode ∧ ∀ m ∈ ms, m < UInt64.size := by
  fun_induction numbers b done with
  | case1 done =>
    cases h
    exact ⟨[], by simp, rfl, by simp⟩
  | case2 => cases h
  | case3 b done hb n rest hn _ ih =>
    obtain ⟨ms, rfl, rfl, hms⟩ := ih h
    obtain ⟨rfl, hlt⟩ := (Base128.decode_eq_ok (by decide)).mp hn
    exact ⟨n :: ms, by simp, by simp, List.forall_mem_cons.mpr ⟨hlt, hms⟩⟩

theorem numbers_flatMap_encode {ms : List Nat} (h : ∀ m ∈ ms, m < UInt64.size)
    (done : List Nat) : numbers (ms.flatMap Base128.encode) done = .ok (done.reverse ++ ms) := by
  induction ms generalizing done with
  | nil => simp [numbers]
  | cons m ms ih =>
    obtain ⟨hm, hms⟩ := List.forall_mem_cons.mp h
    rw [List.flatMap_cons, numbers_of_number (by simp [Base128.encode_ne_nil]) (encode_eq_ok hm),
      ih hms]
    simp

theorem joinLeading_splitLeading (n : Nat) :
    joinLeading (splitLeading n).1 (splitLeading n).2 = n := by
  unfold splitLeading joinLeading
  split
  · simp
  · split <;> simp <;> omega

theorem splitLeading_joinLeading {root child : Nat} (h : leadingOk root child = true) :
    splitLeading (joinLeading root child) = (root, child) := by
  simp only [leadingOk, Bool.or_eq_true, Bool.and_eq_true, decide_eq_true_eq, beq_iff_eq] at h
  unfold splitLeading joinLeading
  obtain ⟨hroot, hchild⟩ | ⟨rfl, -⟩ := h
  · obtain rfl | rfl : root = 0 ∨ root = 1 := by omega
    · simp [hchild]
    · rw [if_neg (by omega), if_pos (by omega)]
      simp
  · rw [if_neg (by omega), if_neg (by omega)]
    simp

theorem joinLeading_lt {root child : Nat} (h : leadingOk root child = true) :
    joinLeading root child < UInt64.size := by
  simp only [leadingOk, Bool.or_eq_true, Bool.and_eq_true, decide_eq_true_eq, beq_iff_eq] at h
  have : UInt64.size = 18446744073709551616 := rfl
  unfold joinLeading
  omega

/-- The rules hold of the arcs that a joined number `n` and further numbers `ns` make. -/
theorem wellFormed_splitLeading {n : Nat} {ns : List Nat} (h : ∀ m ∈ n :: ns, m < UInt64.size) :
    wellFormed ((splitLeading n).1 :: (splitLeading n).2 :: ns) = true := by
  obtain ⟨hn, hns⟩ := List.forall_mem_cons.mp h
  simpa [wellFormed, leadingOk_splitLeading hn] using hns

/-- **Identifiers.** Octets `b` are read as `id` exactly where they are `id.content`. -/
theorem ofContent_eq_ok {b : Bytes} {id : Oid} : ofContent b = .ok id ↔ b = id.content := by
  constructor
  · intro h
    unfold ofContent at h
    split at h
    · cases h
    · cases h
    · rename_i n ns hnumbers
      obtain ⟨ms, hms, rfl, hlt⟩ := exists_of_numbers hnumbers
      cases hms
      rw [ofArcs, dif_pos (wellFormed_splitLeading hlt)] at h
      cases h
      simp [content, joinLeading_splitLeading]
  · rintro rfl
    obtain ⟨arcs, valid⟩ := id
    match arcs, valid with
    | root :: child :: rest, valid =>
      have h := valid
      simp only [wellFormed, Bool.and_eq_true, List.all_eq_true, decide_eq_true_eq] at h
      obtain ⟨hlead, hrest⟩ := h
      have hlt : ∀ m ∈ joinLeading root child :: rest, m < UInt64.size :=
        List.forall_mem_cons.mpr ⟨joinLeading_lt hlead, hrest⟩
      rw [ofContent, content, numbers_flatMap_encode hlt]
      simp only [List.reverse_nil, List.nil_append, splitLeading_joinLeading hlead, ofArcs,
        dif_pos valid]

/-- Identifiers `a` and `b` with the same content octets are the same. -/
theorem content_inj {a b : Oid} : a.content = b.content ↔ a = b := by
  constructor
  · intro h
    have ha : ofContent a.content = .ok a := ofContent_eq_ok.mpr rfl
    rw [h, ofContent_eq_ok.mpr rfl] at ha
    cases ha
    rfl
  · rintro rfl
    rfl

end Pkix.Oid
