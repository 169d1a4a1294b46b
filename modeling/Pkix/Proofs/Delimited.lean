import Mathlib.Data.List.Forall2

/-!
# Texts with separators

What stands in front of a character that it does not contain can be told from what follows, and so
can the items of a list that is written with separators between them.

* `append_inj_of_span`: a stretch of characters that obey a rule, up to one that does not.
* `mem_intercalate`, `intercalate_append_inj`: items with separators between them.
-/

namespace Pkix

variable {α β : Type}

/-- Where two stretches of characters, `u` and `v`, obey a rule `p` and what follows them does not,
they end at the same place. -/
theorem append_inj_of_span {p : α → Bool} {u v r s : List α} (hu : ∀ x ∈ u, p x = true)
    (hv : ∀ x ∈ v, p x = true) (hr : ∀ x ∈ r.head?, p x = false) (hs : ∀ x ∈ s.head?, p x = false)
    (h : u ++ r = v ++ s) : u = v ∧ r = s := by
  have hstop {t : List α} (ht : ∀ x ∈ t.head?, p x = false) : t.takeWhile p = [] := by
    cases t with
    | nil => rfl
    | cons x t => exact List.takeWhile_cons_of_neg (by simp [ht x rfl])
  have hspan := congrArg (List.takeWhile p) h
  rw [List.takeWhile_append_of_pos hu, List.takeWhile_append_of_pos hv, hstop hr, hstop hs,
    List.append_nil, List.append_nil] at hspan
  subst hspan
  exact ⟨rfl, List.append_cancel_left h⟩

/-- A list with separators `sep` is empty only where its first item `xs` is. -/
theorem eq_nil_of_intercalate_cons {sep xs : List α} {xss : List (List α)}
    (h : sep.intercalate (xs :: xss) = []) : xs = [] := by
  cases xss with
  | nil => simpa using h
  | cons ys xss =>
    rw [List.intercalate_cons_cons, List.append_assoc] at h
    exact (List.append_eq_nil_iff.mp h).1

/-- What occurs in a list with separators, `x`, occurs in a separator or in an item. -/
theorem mem_intercalate {sep : List α} {xss : List (List α)} {x : α}
    (h : x ∈ sep.intercalate xss) : x ∈ sep ∨ ∃ xs ∈ xss, x ∈ xs := by
  induction xss with
  | nil => simp at h
  | cons xs xss ih =>
    cases xss with
    | nil => exact .inr ⟨xs, by simp, by simpa using h⟩
    | cons ys xss =>
      rw [List.intercalate_cons_cons, List.append_assoc, List.mem_append, List.mem_append] at h
      obtain h | h | h := h
      · exact .inr ⟨xs, List.mem_cons_self, h⟩
      · exact .inl h
      · exact (ih h).imp_right fun ⟨zs, hzs, hx⟩ => ⟨zs, List.mem_cons_of_mem _ hzs, hx⟩

/-- Items `xs` can be told from the text that they make with `sep` between them, where each item can
be told from what may follow it (`S`): a separator, or what follows the last item. -/
theorem intercalate_append_inj {sep : List α} {f : β → List α} {R : β → β → Prop}
    {S : List α → Prop} (hsep : ∀ t, S (sep ++ t)) {xs ys : List β}
    (hitem : ∀ x ∈ xs, ∀ y ∈ ys, ∀ t u, S t → S u → f x ++ t = f y ++ u → R x y ∧ t = u)
    (hxs : xs ≠ []) (hys : ys ≠ []) {r s : List α} (hr : S r) (hs : S s) (hnr : ¬sep <+: r)
    (hns : ¬sep <+: s) (h : sep.intercalate (xs.map f) ++ r = sep.intercalate (ys.map f) ++ s) :
    List.Forall₂ R xs ys ∧ r = s := by
  induction xs generalizing ys with
  | nil => exact absurd rfl hxs
  | cons x xs ih =>
    obtain ⟨y, ys, rfl⟩ := List.exists_cons_of_ne_nil hys
    have hhead := hitem x List.mem_cons_self y List.mem_cons_self
    cases xs with
    | nil =>
      cases ys with
      | nil =>
        simp only [List.map_cons, List.map_nil, List.intercalate_singleton] at h
        obtain ⟨hR, hrest⟩ := hhead _ _ hr hs h
        exact ⟨.cons hR .nil, hrest⟩
      | cons y' ys =>
        simp only [List.map_cons, List.map_nil, List.intercalate_singleton,
          List.intercalate_cons_cons, List.append_assoc] at h
        obtain ⟨-, hrest⟩ := hhead _ _ hr (hsep _) h
        exact absurd ⟨_, hrest.symm⟩ hnr
    | cons x' xs =>
      cases ys with
      | nil =>
        simp only [List.map_cons, List.map_nil, List.intercalate_singleton,
          List.intercalate_cons_cons, List.append_assoc] at h
        obtain ⟨-, hrest⟩ := hhead _ _ (hsep _) hs h
        exact absurd ⟨_, hrest⟩ hns
      | cons y' ys =>
        simp only [List.map_cons, List.intercalate_cons_cons, List.append_assoc] at h
        obtain ⟨hR, hrest⟩ := hhead _ _ (hsep _) (hsep _) h
        obtain ⟨hall, hrest⟩ := ih
          (fun x hx y hy => hitem x (List.mem_cons_of_mem _ hx) y (List.mem_cons_of_mem _ hy))
          (List.cons_ne_nil _ _) (List.cons_ne_nil y' ys) (List.append_cancel_left hrest)
        exact ⟨.cons hR hall, hrest⟩

end Pkix
