import Pkix.Error
import Mathlib.Data.List.Forall2
import Mathlib.Data.List.Perm.Basic

/-!
# Results of readers

Every reader is a `do` block over `Except`. These equivalences take one apart into its steps.

* `bind_eq_ok`, `ite_error_eq_ok`: what a block that succeeded did, step by step.
* `mapM_eq_ok`: reading a list of values is reading them one by one.
* `filterM_eq_ok`: checking a list is checking its elements one by one and keeping what passes.
* `filterM_eq_error`: the first check that fails is what checking a list fails with.
* `FailsWith`: the errors that a block may end in, step by step.
-/

namespace Pkix

variable {ε α β : Type}

theorem bind_eq_ok {x : Except ε α} {f : α → Except ε β} {b : β} :
    x >>= f = .ok b ↔ ∃ a, x = .ok a ∧ f a = .ok b := by
  cases x <;> simp [bind, Except.bind]

theorem bind_eq_error {x : Except ε α} {f : α → Except ε β} {e : ε} :
    x >>= f = .error e ↔ x = .error e ∨ ∃ a, x = .ok a ∧ f a = .error e := by
  cases x <;> simp [bind, Except.bind]

theorem pure_eq_ok {a b : α} : (pure a : Except ε α) = .ok b ↔ a = b := by
  simp [pure, Except.pure]

theorem toOption_eq_some {x : Except ε α} {a : α} : x.toOption = some a ↔ x = .ok a := by
  cases x <;> simp [Except.toOption]

/-- The error, if the answer is one. -/
def error? : Except ε α → Option ε
  | .ok _ => none
  | .error e => some e

theorem error?_eq_some {x : Except ε α} {e : ε} : error? x = some e ↔ x = .error e := by
  cases x <;> simp [error?]

/-- What `f` says of an answer was said of one. -/
theorem exists_of_map_toOption {x : Except ε α} {f : α → β} {b : β}
    (h : x.toOption.map f = some b) : ∃ a, x = .ok a ∧ f a = b := by
  cases x with
  | error e => cases h
  | ok a => exact ⟨a, rfl, by simpa [Except.toOption] using h⟩

/-- A guarded step `x` succeeds where the guard `c` holds and `x` does. -/
theorem ite_error_eq_ok {c : Prop} [Decidable c] {x : Except ε α} {e : ε} {a : α} :
    (if c then x else .error e) = .ok a ↔ c ∧ x = .ok a := by
  split <;> simp_all

theorem ite_ok_eq_error {c : Prop} [Decidable c] {a : α} {e e' : ε} :
    (if c then .ok a else .error e : Except ε α) = .error e' ↔ ¬c ∧ e' = e := by
  split <;> simp_all [eq_comm]

/-- A step `x` behind a refusal `e` succeeds where the refusal does not apply and `x` does. -/
theorem error_ite_eq_ok {c : Prop} [Decidable c] {x : Except ε α} {e : ε} {a : α} :
    (if c then .error e else x) = .ok a ↔ ¬c ∧ x = .ok a := by
  split <;> simp_all

/-- Reading a list `xs` succeeds if every element is read by `f`, and gives what they say in their
order, `ys`. -/
theorem mapM_eq_ok {f : α → Except ε β} {xs : List α} {ys : List β} :
    xs.mapM f = .ok ys ↔ List.Forall₂ (fun x y => f x = .ok y) xs ys := by
  induction xs generalizing ys with
  | nil => simp [pure, Except.pure, eq_comm]
  | cons x xs ih =>
    simp only [List.mapM_cons, bind_eq_ok, pure_eq_ok, List.forall₂_cons_left_iff, ih]
    constructor
    · rintro ⟨y, hy, ys, hys, rfl⟩
      exact ⟨y, ys, hy, hys, rfl⟩
    · rintro ⟨y, ys, hy, hys, rfl⟩
      exact ⟨y, hy, ys, hys, rfl⟩

/-- Where `f` answers every element of `xs`, the answers are in the order of the list. -/
theorem mapM_eq_some_map {f : α → Option β} {k : α → β} {xs : List α}
    (h : ∀ x ∈ xs, f x = some (k x)) : xs.mapM f = some (xs.map k) := by
  induction xs with
  | nil => rfl
  | cons x xs ih =>
    obtain ⟨hx, hxs⟩ := List.forall_mem_cons.mp h
    rw [List.mapM_cons, hx, ih hxs]
    rfl

/-- A list `xs` is read by `f` if every element is. -/
theorem exists_mapM_iff {f : α → Except ε β} {xs : List α} :
    (∃ ys, xs.mapM f = .ok ys) ↔ ∀ x ∈ xs, ∃ y, f x = .ok y := by
  simp only [mapM_eq_ok]
  induction xs with
  | nil => exact ⟨fun _ => nofun, fun _ => ⟨[], .nil⟩⟩
  | cons x xs ih =>
    rw [List.forall_mem_cons, ← ih]
    constructor
    · rintro ⟨_, hys⟩
      obtain ⟨y, ys, hy, hys, -⟩ := List.forall₂_cons_left_iff.mp hys
      exact ⟨⟨y, hy⟩, ys, hys⟩
    · rintro ⟨⟨y, hy⟩, ys, hys⟩
      exact ⟨y :: ys, .cons hy hys⟩

/-- A list `xs` is read in any order, `xs'`, with the answers in that order. -/
theorem exists_mapM_of_perm {f : α → Except ε β} {xs xs' : List α} {ys : List β}
    (h : xs.Perm xs') (hys : xs.mapM f = .ok ys) :
    ∃ ys', xs'.mapM f = .ok ys' ∧ ys.Perm ys' := by
  obtain ⟨ys', hys', hperm⟩ := List.perm_comp_forall₂ h.symm (mapM_eq_ok.mp hys)
  exact ⟨ys', mapM_eq_ok.mpr hys', hperm.symm⟩

theorem length_of_mapM {f : α → Except ε β} {xs : List α} {ys : List β}
    (h : xs.mapM f = .ok ys) : ys.length = xs.length :=
  (mapM_eq_ok.mp h).length_eq.symm

/-- Whatever is among the answers `ys` was the answer to something in `xs`. -/
theorem exists_of_mapM {f : α → Except ε β} {xs : List α} {ys : List β} (h : xs.mapM f = .ok ys) :
    ∀ y ∈ ys, ∃ x ∈ xs, f x = .ok y := by
  have hall := mapM_eq_ok.mp h
  clear h
  induction hall with
  | nil => simp
  | cons hxy _ ih =>
    refine List.forall_mem_cons.mpr ⟨⟨_, List.mem_cons_self, hxy⟩, fun y hy => ?_⟩
    obtain ⟨x, hx, h⟩ := ih y hy
    exact ⟨x, List.mem_cons_of_mem _ hx, h⟩

/-- Whatever is in the list `xs` has its answer among the answers `ys`. -/
theorem exists_of_mem_of_mapM {f : α → Except ε β} {xs : List α} {ys : List β}
    (h : xs.mapM f = .ok ys) : ∀ x ∈ xs, ∃ y ∈ ys, f x = .ok y := by
  have hall := mapM_eq_ok.mp h
  clear h
  induction hall with
  | nil => simp
  | cons hxy _ ih =>
    refine List.forall_mem_cons.mpr ⟨⟨_, List.mem_cons_self, hxy⟩, fun x hx => ?_⟩
    obtain ⟨y, hy, h⟩ := ih x hx
    exact ⟨y, List.mem_cons_of_mem _ hy, h⟩

/-- A reader `f` that undoes `g` on what obeys `P` reads a list exactly where the list is what `g`
makes. -/
theorem mapM_eq_ok_of_forall {γ : Type} {f : α → Except ε β} {k : α → γ} {g : β → γ}
    {P : β → Prop} {xs : List α} {ys : List β}
    (h : ∀ x ∈ xs, ∀ y, f x = .ok y ↔ k x = g y ∧ P y) :
    xs.mapM f = .ok ys ↔ xs.map k = ys.map g ∧ ∀ y ∈ ys, P y := by
  rw [mapM_eq_ok]
  induction xs generalizing ys with
  | nil =>
    cases ys <;> simp
  | cons x xs ih =>
    obtain ⟨hx, hxs⟩ := List.forall_mem_cons.mp h
    cases ys with
    | nil => simp
    | cons y ys =>
      rw [List.forall₂_cons, hx, ih hxs, List.map_cons, List.map_cons, List.cons.injEq,
        List.forall_mem_cons]
      exact and_and_and_comm

/-- A writer `f` that fails only where `P` does not hold writes a list exactly where `P` holds of
all of it. -/
theorem mapM_eq_ok_of_total {f : α → Except ε β} {g : α → β} {P : α → Prop} {xs : List α}
    {ys : List β} (h : ∀ x ∈ xs, ∀ y, f x = .ok y ↔ P x ∧ g x = y) :
    xs.mapM f = .ok ys ↔ (∀ x ∈ xs, P x) ∧ xs.map g = ys := by
  rw [mapM_eq_ok]
  induction xs generalizing ys with
  | nil =>
    cases ys <;> simp
  | cons x xs ih =>
    obtain ⟨hx, hxs⟩ := List.forall_mem_cons.mp h
    cases ys with
    | nil => simp
    | cons y ys =>
      rw [List.forall₂_cons, hx, ih hxs, List.map_cons, List.cons.injEq, List.forall_mem_cons]
      exact and_and_and_comm

/-- A reader `f` that goes along with another one, `g`, goes along with it on lists. -/
theorem mapM_imp {f g : α → Except ε β} {xs : List α} {ys : List β}
    (h : ∀ x ∈ xs, ∀ y, f x = .ok y → g x = .ok y) (hys : xs.mapM f = .ok ys) :
    xs.mapM g = .ok ys := by
  rw [mapM_eq_ok] at hys ⊢
  induction hys with
  | nil => exact .nil
  | cons hxy _ ih =>
    obtain ⟨hx, hxs⟩ := List.forall_mem_cons.mp h
    exact .cons (hx _ hxy) (ih hxs)

/-- Two readers `f` and `g` that never disagree do not disagree about lists. -/
theorem mapM_unique {f g : α → Except ε β} {xs : List α} {ys zs : List β}
    (h : ∀ x ∈ xs, ∀ y z, f x = .ok y → g x = .ok z → y = z) (hys : xs.mapM f = .ok ys)
    (hzs : xs.mapM g = .ok zs) : ys = zs := by
  rw [mapM_eq_ok] at hys hzs
  induction hys generalizing zs with
  | nil =>
    cases hzs
    rfl
  | cons hxy _ ih =>
    obtain ⟨hx, hxs⟩ := List.forall_mem_cons.mp h
    cases hzs with
    | cons hxz hzs => rw [hx _ _ hxy hxz, ih hxs hzs]

/-- A reader `f` that can only give `g` of what was written by `k` reads a list as what `g`
gives. -/
theorem eq_map_of_mapM {γ : Type} {f : β → Except ε γ} {k : α → β} {g : α → γ}
    {xs : List α} {ys : List γ} (h : ∀ x ∈ xs, ∀ y, f (k x) = .ok y → y = g x)
    (hys : (xs.map k).mapM f = .ok ys) : ys = xs.map g := by
  rw [mapM_eq_ok, List.forall₂_map_left_iff] at hys
  induction hys with
  | nil => rfl
  | cons hxy _ ih =>
    obtain ⟨hx, hxs⟩ := List.forall_mem_cons.mp h
    rw [hx _ hxy, ih hxs, List.map_cons]

theorem filterAuxM_eq_ok {f : α → Except ε Bool} {xs done ys : List α} :
    xs.filterAuxM f done = .ok ys ↔ (∀ x ∈ xs, ∃ b, f x = .ok b) ∧
      (xs.filter fun x => (f x).toOption == some true).reverse ++ done = ys := by
  induction xs generalizing done with
  | nil => simp [List.filterAuxM, pure_eq_ok]
  | cons x xs ih =>
    rw [List.filterAuxM, List.forall_mem_cons, bind_eq_ok]
    cases hx : f x with
    | error e => simp
    | ok b =>
      simp only [Except.ok.injEq, exists_eq_left', ih]
      cases b <;> simp [Except.toOption, hx]

theorem filterM_congr {f g : α → Except ε Bool} {xs : List α} (h : ∀ x ∈ xs, f x = g x) :
    xs.filterM f = xs.filterM g := by
  suffices haux : ∀ done, xs.filterAuxM f done = xs.filterAuxM g done by
    rw [List.filterM, List.filterM, haux]
  induction xs with
  | nil => exact fun _ => rfl
  | cons x xs ih =>
    obtain ⟨hx, hxs⟩ := List.forall_mem_cons.mp h
    intro done
    simp only [List.filterAuxM, hx, ih hxs]

/-- Checking a list `xs` succeeds if every check `f` does, and keeps what passes in its order. -/
theorem filterM_eq_ok {f : α → Except ε Bool} {xs ys : List α} :
    xs.filterM f = .ok ys ↔
      (∀ x ∈ xs, ∃ b, f x = .ok b) ∧ (xs.filter fun x => (f x).toOption == some true) = ys := by
  simp only [List.filterM, bind_eq_ok, pure_eq_ok, filterAuxM_eq_ok, List.append_nil]
  constructor
  · rintro ⟨_, ⟨hall, rfl⟩, rfl⟩
    exact ⟨hall, (List.reverse_reverse _).symm⟩
  · rintro ⟨hall, rfl⟩
    exact ⟨_, ⟨hall, rfl⟩, List.reverse_reverse _⟩

theorem filterAuxM_eq_error {f : α → Except ε Bool} {xs done : List α} {e : ε} :
    xs.filterAuxM f done = .error e ↔ ∃ before x after, xs = before ++ x :: after ∧
      (∀ y ∈ before, ∃ b, f y = .ok b) ∧ f x = .error e := by
  induction xs generalizing done with
  | nil => simp [List.filterAuxM, pure, Except.pure]
  | cons x xs ih =>
    rw [List.filterAuxM, bind_eq_error]
    constructor
    · rintro (hx | ⟨b, hx, h⟩)
      · exact ⟨[], x, xs, rfl, by simp, hx⟩
      · obtain ⟨before, y, after, rfl, hbefore, hy⟩ := ih.mp h
        exact ⟨x :: before, y, after, rfl, List.forall_mem_cons.mpr ⟨⟨b, hx⟩, hbefore⟩, hy⟩
    · rintro ⟨before, y, after, hxs, hbefore, hy⟩
      cases before with
      | nil =>
        cases hxs
        exact .inl hy
      | cons z before =>
        cases hxs
        obtain ⟨⟨b, hx⟩, hbefore⟩ := List.forall_mem_cons.mp hbefore
        exact .inr ⟨b, hx, ih.mpr ⟨before, y, after, rfl, hbefore, hy⟩⟩

/-- Checking a list `xs` fails with the first check `f` that does. -/
theorem filterM_eq_error {f : α → Except ε Bool} {xs : List α} {e : ε} :
    xs.filterM f = .error e ↔ ∃ before x after, xs = before ++ x :: after ∧
      (∀ y ∈ before, ∃ b, f y = .ok b) ∧ f x = .error e := by
  rw [List.filterM, bind_eq_error, filterAuxM_eq_error]
  simp [pure, Except.pure]

/-! ## What readers fail with -/

/-- Where `x` is no answer, the error is one of `P`. -/
def FailsWith (P : ε → Prop) (x : Except ε α) : Prop := ∀ e, x = .error e → P e

section FailsWith

variable {P Q : ε → Prop}

theorem FailsWith.imp {x : Except ε α} (h : FailsWith P x) (hpq : ∀ e, P e → Q e) :
    FailsWith Q x :=
  fun e he => hpq e (h e he)

@[simp]
theorem failsWith_ok {a : α} : FailsWith P (.ok a : Except ε α) := fun _ h => nomatch h

@[simp]
theorem failsWith_pure {a : α} : FailsWith P (pure a : Except ε α) := failsWith_ok

@[simp]
theorem failsWith_error {e : ε} : FailsWith P (.error e : Except ε α) ↔ P e := by
  simp [FailsWith]

/-- A block `x >>= f` fails as its steps do. -/
@[simp]
theorem failsWith_bind {x : Except ε α} {f : α → Except ε β} :
    FailsWith P (x >>= f) ↔ FailsWith P x ∧ ∀ a, x = .ok a → FailsWith P (f a) := by
  simp only [FailsWith, bind_eq_error]
  constructor
  · intro h
    exact ⟨fun e he => h e (.inl he), fun a ha e he => h e (.inr ⟨a, ha, he⟩)⟩
  · rintro ⟨hx, hf⟩ e (he | ⟨a, ha, he⟩)
    · exact hx e he
    · exact hf a ha e he

@[simp]
theorem failsWith_map {x : Except ε α} {f : α → β} : FailsWith P (f <$> x) ↔ FailsWith P x := by
  cases x <;> simp [Functor.map, Except.map]

@[simp]
theorem failsWith_ite {c : Prop} [Decidable c] {x y : Except ε α} :
    FailsWith P (if c then x else y) ↔ (c → FailsWith P x) ∧ (¬c → FailsWith P y) := by
  split <;> simp_all

end FailsWith

end Pkix
