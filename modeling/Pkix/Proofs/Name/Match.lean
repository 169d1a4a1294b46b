import Pkix.Name.Basic
import Pkix.Proofs.Except

/-!
# Names that are the same

Names that are the same form classes: an assertion is known by its attribute and what its value
counts as, a relative name by how many assertions it has and what they are known by, and a name by
its relative names one by one.

* `Assertion.Mark`, `Assertion.same_iff`: what an assertion is known by.
* `RelativeName.same_iff`, `Name.beq_iff`: relative names and names that are the same.
* `Name.equivalence`: to be the same is an equivalence.
-/

namespace Pkix

open Der

namespace Assertion

/-- What a value counts as when names are compared: a text up to blanks and case (`.inl`), or the
value as it stands. -/
abbrev Mark := List Char ⊕ Value

/-- What the value of `a` counts as. -/
def mark (a : Assertion) : Mark :=
  match a.value.text with
  | .ok s => .inl (Text.normalize s)
  | .error _ => .inr a.value

/-- `a` and `b` are the same where they are about one attribute and their values count as the same
(`mark`). -/
theorem same_iff {a b : Assertion} : a.same b = true ↔ (a.type, a.mark) = (b.type, b.mark) := by
  simp only [same, mark, Bool.and_eq_true, beq_iff_eq, Prod.mk.injEq]
  refine and_congr_right fun _ => ?_
  cases ha : a.value.text with
  | ok s =>
    cases hb : b.value.text with
    | ok t => simp
    | error e =>
      -- a text is never the same value as something that is no text
      have hne : a.value ≠ b.value := by
        intro h
        rw [h, hb] at ha
        cases ha
      simp [hne]
  | error e =>
    cases hb : b.value.text with
    | ok t =>
      have hne : a.value ≠ b.value := by
        intro h
        rw [h, hb] at ha
        cases ha
      simp [hne]
    | error e' => simp

end Assertion

namespace RelativeName

/-- What the assertions of `n` are known by, in their order. -/
def marks (n : RelativeName) : List (Oid × Assertion.Mark) :=
  n.assertions.map fun a => (a.type, a.mark)

theorem any_same_iff {a : Assertion} {n : RelativeName} :
    n.assertions.any (a.same ·) = true ↔ (a.type, a.mark) ∈ n.marks := by
  simp only [List.any_eq_true, Assertion.same_iff, marks, List.mem_map]
  exact exists_congr fun b => and_congr_right fun _ => eq_comm

/-- Every assertion of `m` has a match in `n` where all that the assertions of `m` are known by
occurs there. -/
theorem all_any_same_iff {m n : RelativeName} :
    (m.assertions.all fun a => n.assertions.any (a.same ·)) = true ↔ m.marks ⊆ n.marks := by
  simp only [List.all_eq_true, any_same_iff]
  exact (List.forall_mem_map (P := (· ∈ n.marks))).symm

/-- `m` and `n` are the same where they have as many assertions, known by the same. Assertions that
are repeated count by their number only. -/
theorem same_iff {m n : RelativeName} :
    m.same n = true ↔ m.marks.length = n.marks.length ∧ ∀ k, k ∈ m.marks ↔ k ∈ n.marks := by
  simp only [same, Bool.and_eq_true, beq_iff_eq, all_any_same_iff, marks, List.length_map,
    and_assoc]
  refine and_congr_right fun _ => ⟨fun ⟨hmn, hnm⟩ k => ⟨@hmn k, @hnm k⟩, fun h => ?_⟩
  exact ⟨fun k => (h k).mp, fun k => (h k).mpr⟩

theorem same_self (n : RelativeName) : n.same n = true := same_iff.mpr ⟨rfl, fun _ => .rfl⟩

theorem same_symm {m n : RelativeName} (h : m.same n = true) : n.same m = true := by
  obtain ⟨hlen, hmem⟩ := same_iff.mp h
  exact same_iff.mpr ⟨hlen.symm, fun k => (hmem k).symm⟩

theorem same_trans {l m n : RelativeName} (hlm : l.same m = true) (hmn : m.same n = true) :
    l.same n = true := by
  obtain ⟨hlen, hmem⟩ := same_iff.mp hlm
  obtain ⟨hlen', hmem'⟩ := same_iff.mp hmn
  exact same_iff.mpr ⟨hlen.trans hlen', fun k => (hmem k).trans (hmem' k)⟩

end RelativeName

/-- A relation `R` that carries over does so on lists, one by one. -/
theorem forall₂_trans {α : Type} {R : α → α → Prop} (h : ∀ x y z, R x y → R y z → R x z)
    {xs ys zs : List α} (hxy : List.Forall₂ R xs ys) (hyz : List.Forall₂ R ys zs) :
    List.Forall₂ R xs zs := by
  induction hxy generalizing zs with
  | nil => exact hyz
  | cons hx _ ih =>
    cases hyz with
    | cons hy hyz => exact .cons (h _ _ _ hx hy) (ih hyz)

namespace Name

/-- Names `a` and `b` are the same where their relative names are, one by one. -/
theorem beq_iff {a b : Name} :
    (a == b) = true ↔ List.Forall₂ (fun m n : RelativeName => m.same n = true) a.rdns b.rdns := by
  change a.same b = true ↔ _
  rw [same, Bool.and_eq_true, beq_iff_eq, List.all_eq_true, List.forall₂_iff_zip]
  exact and_congr_right fun _ => ⟨fun h m n hmn => h (m, n) hmn, fun h p hp => h hp⟩

/-- A name `n` is the same as itself. -/
theorem beq_self (n : Name) : (n == n) = true :=
  beq_iff.mpr (List.forall₂_same.mpr fun r _ => r.same_self)

theorem beq_symm {a b : Name} (h : (a == b) = true) : (b == a) = true :=
  beq_iff.mpr ((beq_iff.mp h).flip.imp fun _ _ => RelativeName.same_symm)

theorem beq_trans {a b c : Name} (hab : (a == b) = true) (hbc : (b == c) = true) :
    (a == c) = true :=
  beq_iff.mpr (forall₂_trans (R := fun m n : RelativeName => m.same n = true)
    (fun _ _ _ => RelativeName.same_trans) (beq_iff.mp hab) (beq_iff.mp hbc))

/-- To be the same (`==`) is an equivalence between names. -/
theorem equivalence : Equivalence fun a b : Name => (a == b) = true where
  refl := beq_self
  symm := beq_symm
  trans := beq_trans

/-- Names `i` and `j` that are the same are the same as the same names `n`. -/
theorem beq_congr_right {i j : Name} (h : (i == j) = true) (n : Name) : (n == i) = (n == j) :=
  Bool.eq_iff_iff.mpr ⟨fun hi => beq_trans hi h, fun hj => beq_trans hj (beq_symm h)⟩

end Name

end Pkix
