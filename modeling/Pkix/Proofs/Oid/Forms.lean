import Pkix.Proofs.Oid.Word

/-!
# One content and one text for every identifier

* `Oid.Admissible`: the arcs that make an identifier.
* `Oid.one_content_one_text`: octets are read as an identifier exactly where they are its content,
  words of 64 bits are enough for reading and writing it, and its text is read as itself; so
  identifiers are told apart by their content and by their text.
-/

namespace Pkix.Oid

/-- Arcs below the roots 0 and 1, which have 40 children each (`low`), or below root 2, whose
children leave room for 80 more in a word (`high`). All further arcs are words. -/
inductive Admissible : List Nat → Prop
  | low {root child : Nat} {rest : List Nat} (root_eq : root = 0 ∨ root = 1) (child_lt : child < 40)
      (rest_lt : ∀ a ∈ rest, a < UInt64.size) : Admissible (root :: child :: rest)
  | high {child : Nat} {rest : List Nat} (child_le : child ≤ UInt64.size - 1 - 80)
      (rest_lt : ∀ a ∈ rest, a < UInt64.size) : Admissible (2 :: child :: rest)

theorem wellFormed_iff {arcs : List Nat} : wellFormed arcs = true ↔ Admissible arcs := by
  have hsize : UInt64.size = 18446744073709551616 := rfl
  constructor
  · intro h
    match arcs, h with
    | root :: child :: rest, h =>
      simp only [wellFormed, leadingOk, Bool.and_eq_true, Bool.or_eq_true, List.all_eq_true,
        decide_eq_true_eq, beq_iff_eq] at h
      rcases h with ⟨⟨hroot, hchild⟩ | ⟨rfl, hchild⟩, hrest⟩
      · exact .low (by omega) hchild hrest
      · exact .high (by omega) hrest
  · intro h
    cases h with
    | low root_eq child_lt rest_lt =>
      rcases root_eq with rfl | rfl <;> simpa [wellFormed, leadingOk, child_lt] using rest_lt
    | @high child rest child_le rest_lt =>
      have hchild : child + 80 < UInt64.size := by omega
      simpa [wellFormed, leadingOk, hchild] using rest_lt

theorem admissible_arcs (o : Oid) : Admissible o.arcs := wellFormed_iff.mp o.valid

/-- The `arcs` make an identifier exactly where they are admissible, and they are its arcs. -/
theorem ofArcs_eq_ok {arcs : List Nat} {o : Oid} :
    ofArcs arcs = .ok o ↔ Admissible arcs ∧ o.arcs = arcs := by
  unfold ofArcs
  constructor
  · intro h
    split at h
    · rename_i hvalid
      cases h
      exact ⟨wellFormed_iff.mp hvalid, rfl⟩
    · split at h <;> cases h
  · rintro ⟨-, rfl⟩
    exact dif_pos o.valid

/-- **One content, one text.** The `arcs` make an identifier exactly where they are `Admissible`.
Octets `b` are read as an identifier `o` exactly where they are its content, and words of 64 bits
hold every result on the way, for all octets that are read and all identifiers that are written. The
text of `o` is read as itself. So identifiers are the same exactly where their contents are, and
exactly where their texts are. -/
theorem one_content_one_text :
    (∀ arcs o, ofArcs arcs = .ok o ↔ Admissible arcs ∧ o.arcs = arcs) ∧
    (∀ b o, ofContent b = .ok o ↔ Admissible o.arcs ∧ o.content = b) ∧
    (∀ b, (ofContentWords? b).map (·.map (List.map UInt64.toNat)) =
      some ((ofContent b).map arcs)) ∧
    (∀ o : Oid, o.words.map UInt64.toNat = o.arcs ∧ contentWords? o.words = some o.content) ∧
    (∀ o : Oid, ofText o.text = .ok o) ∧
    (∀ a b : Oid, (a = b ↔ a.content = b.content) ∧ (a = b ↔ a.text = b.text)) := by
  refine ⟨fun arcs o => ofArcs_eq_ok, fun b o => ?_, ofContentWords?_eq,
    fun o => ⟨o.map_toNat_words, contentWords?_words o⟩, ofText_text, fun a b => ⟨?_, ?_⟩⟩
  · rw [ofContent_eq_ok, eq_comm, and_iff_right o.admissible_arcs]
  · exact content_inj.symm
  · exact ⟨congrArg text, text_inj⟩

end Pkix.Oid
