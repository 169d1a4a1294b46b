import Pkix.Der.Write
import Pkix.Proofs.Der.Framing

/-!
# Canonical sets

Encodings are sorted by tag and then octet by octet. Arbitrary octets are not ordered by this; the
encodings of values are, so everything about sets is said of values.

* `Value.cmp`: the order of encodings, as an order of values. It is total.
* `SetOrder.sortBy`: things in the order of their encodings.
* `SetOrder.Sorted`: encodings in canonical order, which sorting leaves as they are.
* `SetOrder.Leads`: the value that sorting brings to the front.
* `SetOrder.sort_sort`: encodings of values that are sorted stay as they are.
* `SetOrder.exists_sort_middle`: one encoding more or less leaves the others in their order.
* `Write.setOf_eq`: a set is written as the values of its elements in canonical order.
-/

namespace Pkix

theorem Bytes.cmp_eq_compareLex : Bytes.cmp = List.compareLex compare := by
  funext a b
  induction a generalizing b with
  | nil => cases b <;> rfl
  | cons x xs ih =>
    cases b with
    | nil => rfl
    | cons y ys => rw [cmp, ih, List.compareLex_cons_cons]

instance : Std.TransCmp Bytes.cmp := by
  rw [Bytes.cmp_eq_compareLex]
  infer_instance

namespace Der

namespace Value

/-- The octets of `v` after the tag. -/
def untagged (v : Value) : Bytes := Length.octets v.content.length ++ v.content

theorem octets_eq_untagged (v : Value) : v.octets = v.tag.octets ++ v.untagged := by
  simp [octets, header, untagged]

/-- Compares values by class, by number and then by `untagged`. -/
def cmp : Value → Value → Ordering :=
  compareLex (compareOn (·.tag.cls.index))
    (compareLex (compareOn (·.tag.number)) fun v w => v.untagged.cmp w.untagged)

instance : Std.TransCmp fun v w : Value => v.untagged.cmp w.untagged where
  eq_swap {v w} := @Std.OrientedCmp.eq_swap _ Bytes.cmp _ v.untagged w.untagged
  isLE_trans {u v w} :=
    @Std.TransCmp.isLE_trans _ Bytes.cmp _ u.untagged v.untagged w.untagged

instance : Std.TransCmp cmp := inferInstanceAs (Std.TransCmp (compareLex _ (compareLex _ _)))

/-- `v` and `w` compare as their encodings do. -/
theorem cmp_octets (v w : Value) : SetOrder.cmp v.octets w.octets = v.cmp w := by
  rw [SetOrder.cmp, Tag.ofOctets_eq_ok.mpr v.octets_eq_untagged,
    Tag.ofOctets_eq_ok.mpr w.octets_eq_untagged]
  rfl

theorem bne_gt_eq_isLE (o : Ordering) : (o != .gt) = o.isLE := by cases o <;> rfl

theorem cmp_trans (u v w : Value) (huv : (u.cmp v != .gt) = true) (hvw : (v.cmp w != .gt) = true) :
    (u.cmp w != .gt) = true := by
  rw [bne_gt_eq_isLE] at *
  exact Std.TransCmp.isLE_trans huv hvw

theorem cmp_total (v w : Value) : (v.cmp w != .gt || w.cmp v != .gt) = true := by
  rw [bne_gt_eq_isLE, bne_gt_eq_isLE, @Std.OrientedCmp.eq_swap _ cmp _ w v]
  cases v.cmp w <;> rfl

end Value

/-! ## Sorting and insertion -/

section

variable {α : Type} {le : α → α → Bool}

/-- One element more, `x`, is put before the elements that are not below it. -/
theorem mergeSort_cons_eq_filter (htrans : ∀ x y z, le x y → le y z → le x z)
    (htotal : ∀ x y, le x y || le y x) (x : α) (xs : List α) :
    (x :: xs).mergeSort le =
      (xs.mergeSort le).filter (fun y => !le x y) ++ x :: (xs.mergeSort le).filter (le x) := by
  obtain ⟨below, above, hsort, hxs, hbelow⟩ := List.mergeSort_cons htrans htotal x xs
  have hsorted := List.pairwise_mergeSort htrans htotal (x :: xs)
  rw [hsort, List.pairwise_append] at hsorted
  have habove : ∀ y ∈ above, le x y = true := (List.pairwise_cons.mp hsorted.2.1).1
  rw [hsort, hxs, List.filter_append, List.filter_append, List.filter_eq_self.mpr hbelow,
    List.filter_eq_self.mpr habove, List.filter_eq_nil_iff.mpr (by simpa using habove),
    List.filter_eq_nil_iff.mpr (by simpa using hbelow), List.append_nil, List.nil_append]

/-- **Stability.** Where `z` stands makes no difference to the order of the others, `xs ++ ys`. -/
theorem exists_mergeSort_middle (htrans : ∀ x y z, le x y → le y z → le x z)
    (htotal : ∀ x y, le x y || le y x) (xs ys : List α) (z : α) :
    ∃ front back, (xs ++ z :: ys).mergeSort le = front ++ z :: back ∧
      (xs ++ ys).mergeSort le = front ++ back := by
  induction xs with
  | nil =>
    obtain ⟨front, back, hfull, hrest, -⟩ := List.mergeSort_cons htrans htotal z ys
    exact ⟨front, back, hfull, hrest⟩
  | cons x xs ih =>
    obtain ⟨front, back, hfull, hrest⟩ := ih
    have hcons (zs : List α) := mergeSort_cons_eq_filter htrans htotal x zs
    rw [List.cons_append, List.cons_append, hcons, hcons, hfull, hrest]
    -- the element that makes no difference is either below the new first one or not
    by_cases hz : le x z = true
    · refine ⟨(front ++ back).filter (fun y => !le x y) ++ x :: front.filter (le x),
        back.filter (le x), ?_, ?_⟩
      · simp [hz]
      · simp
    · refine ⟨front.filter (fun y => !le x y),
        back.filter (fun y => !le x y) ++ x :: (front ++ back).filter (le x), ?_, ?_⟩
      · simp [hz]
      · simp

end

namespace SetOrder

/-- The things `xs` in the canonical order of their encodings `f`; those whose encodings compare
equal keep their order. -/
def sortBy {α : Type} (f : α → Bytes) (xs : List α) : List α :=
  xs.mergeSort fun x y => cmp (f x) (f y) != .gt

variable {α : Type} (f : α → Bytes) (xs : List α)

theorem sortBy_perm : (sortBy f xs).Perm xs := List.mergeSort_perm _ _

theorem map_sortBy : (sortBy f xs).map f = sort (xs.map f) :=
  List.map_mergeSort fun _ _ _ _ => rfl

/-- The encodings `es` are in canonical order. -/
def Sorted (es : List Bytes) : Prop := es.Pairwise fun a b => cmp a b ≠ .gt

instance (es : List Bytes) : Decidable (Sorted es) := inferInstanceAs (Decidable (es.Pairwise _))

theorem sort_of_sorted {es : List Bytes} (h : Sorted es) : sort es = es :=
  List.mergeSort_of_pairwise (h.imp fun h => by simpa using h)

/-- Two encodings `a` and `b` that are out of order change places. -/
theorem sort_pair {a b : Bytes} (h : cmp a b = .gt) : sort [a, b] = [b, a] := by
  simp [sort, List.mergeSort, List.MergeSort.Internal.splitInTwo, h]

theorem mem_sortBy {x : α} : x ∈ sortBy f xs ↔ x ∈ xs := (sortBy_perm f xs).mem_iff

theorem length_sortBy : (sortBy f xs).length = xs.length := (sortBy_perm f xs).length_eq

theorem sortBy_octets (vs : List Value) :
    sortBy Value.octets vs = vs.mergeSort fun v w => v.cmp w != .gt := by
  simp only [sortBy, Value.cmp_octets]

/-- Values in canonical order, `sortBy Value.octets vs`, stay as they are. -/
theorem sortBy_sortBy (vs : List Value) :
    sortBy Value.octets (sortBy Value.octets vs) = sortBy Value.octets vs := by
  simp only [sortBy_octets]
  apply List.mergeSort_of_pairwise
  exact List.pairwise_mergeSort Value.cmp_trans Value.cmp_total _

/-- `v` comes first in canonical order: those of `vs` listed before it are greater, and none after
it is less. -/
def Leads (v : Value) (vs : List Value) : Prop :=
  ∃ front back, vs = front ++ v :: back ∧ (∀ w ∈ front, w.cmp v = .gt) ∧ ∀ w ∈ back, v.cmp w ≠ .gt

/-- A value `v` that is listed first leads if none of `vs` is less. -/
theorem leads_cons {v : Value} {vs : List Value} (h : ∀ w ∈ vs, v.cmp w ≠ .gt) :
    Leads v (v :: vs) :=
  ⟨[], vs, rfl, List.forall_mem_nil _, h⟩

theorem leads_singleton (v : Value) : Leads v [v] := leads_cons (List.forall_mem_nil _)

theorem exists_leads {vs : List Value} (h : vs ≠ []) : ∃ v, Leads v vs := by
  induction vs with
  | nil => exact absurd rfl h
  | cons v vs ih =>
    by_cases hvs : vs = []
    · exact ⟨v, hvs ▸ leads_singleton v⟩
    obtain ⟨w, front, back, rfl, hfront, hback⟩ := ih hvs
    by_cases hv : v.cmp w = .gt
    · exact ⟨w, v :: front, back, rfl, List.forall_mem_cons.mpr ⟨hv, hfront⟩, hback⟩
    · have hle {x : Value} (hx : w.cmp x ≠ .gt) : v.cmp x ≠ .gt := by
        simpa using v.cmp_trans w x (by simpa using hv) (by simpa using hx)
      refine ⟨v, leads_cons (List.forall_mem_append.mpr ⟨fun x hx => hle ?_,
        List.forall_mem_cons.mpr ⟨hv, fun x hx => hle (hback x hx)⟩⟩)⟩
      rw [Std.OrientedCmp.gt_iff_lt.mp (hfront x hx)]
      decide

/-- **The first of a set.** Sorting `vs` brings the value that leads, `v`, to the front. -/
theorem Leads.head?_sortBy {v : Value} {vs : List Value} (h : Leads v vs) :
    (sortBy Value.octets vs).head? = some v := by
  obtain ⟨front, back, rfl, hfront, hback⟩ := h
  rw [sortBy_octets]
  induction front with
  | nil =>
    have hnone : (back.mergeSort fun v w => v.cmp w != .gt).filter
        (fun w => !(v.cmp w != .gt)) = [] := by
      rw [List.filter_eq_nil_iff]
      intro w hw
      simpa using hback w ((List.mergeSort_perm _ _).mem_iff.mp hw)
    rw [List.nil_append, mergeSort_cons_eq_filter Value.cmp_trans Value.cmp_total, hnone]
    rfl
  | cons w front ih =>
    obtain ⟨hw, hfront⟩ := List.forall_mem_cons.mp hfront
    obtain ⟨rest, hrest⟩ := List.head?_eq_some_iff.mp (ih hfront)
    rw [List.cons_append, mergeSort_cons_eq_filter Value.cmp_trans Value.cmp_total, hrest,
      List.filter_cons_of_pos (by simp [hw])]
    rfl

end SetOrder

/-- Encodings `es` of values are the encodings of a list of values, `vs`. -/
theorem exists_values {es : List Bytes} {P : Value → Prop}
    (h : ∀ e ∈ es, ∃ v : Value, P v ∧ e = v.octets) :
    ∃ vs : List Value, es = vs.map Value.octets ∧ ∀ v ∈ vs, P v := by
  induction es with
  | nil => exact ⟨[], rfl, by simp⟩
  | cons e es ih =>
    obtain ⟨⟨v, hv, rfl⟩, hes⟩ := List.forall_mem_cons.mp h
    obtain ⟨vs, rfl, hvs⟩ := ih hes
    exact ⟨v :: vs, rfl, List.forall_mem_cons.mpr ⟨hv, hvs⟩⟩

/-- **Canonical order.** Encodings `es` of values that are sorted stay as they are. -/
theorem SetOrder.sort_sort {es : List Bytes} (h : ∀ e ∈ es, ∃ v : Value, e = v.octets) :
    sort (sort es) = sort es := by
  obtain ⟨vs, rfl, -⟩ := exists_values (P := fun _ => True) (by simpa using h)
  rw [← map_sortBy, ← map_sortBy, sortBy_sortBy]

/-- **Insertion.** Where the encoding `e` stands makes no difference to the order of the others,
`es ++ fs`. -/
theorem SetOrder.exists_sort_middle {es fs : List Bytes} {e : Bytes}
    (h : ∀ e ∈ es ++ fs, ∃ v : Value, e = v.octets) (he : ∃ v : Value, e = v.octets) :
    ∃ front back, sort (es ++ e :: fs) = front ++ e :: back ∧
      sort (es ++ fs) = front ++ back := by
  obtain ⟨hes, hfs⟩ := List.forall_mem_append.mp h
  obtain ⟨vs, rfl, -⟩ := exists_values (P := fun _ => True) (by simpa using hes)
  obtain ⟨ws, rfl, -⟩ := exists_values (P := fun _ => True) (by simpa using hfs)
  obtain ⟨v, rfl⟩ := he
  obtain ⟨front, back, hfull, hrest⟩ :=
    exists_mergeSort_middle Value.cmp_trans Value.cmp_total vs ws v
  refine ⟨front.map Value.octets, back.map Value.octets, ?_, ?_⟩
  · rw [← List.map_cons, ← List.map_append, ← map_sortBy, sortBy_octets, hfull, List.map_append,
      List.map_cons]
  · rw [← List.map_append, ← map_sortBy, sortBy_octets, hrest, List.map_append]

/-- `setOf tag` holds the values `vs` that are written for the elements `xs`, in canonical order. -/
theorem Write.setOf_eq {α : Type} {f : α → Bytes} {xs : List α} {vs : List Value} (tag : UInt8)
    (h : (SetOrder.sortBy f xs).map f = vs.map Value.octets) :
    setOf tag (xs.map f) = element tag (values vs) := by
  rw [setOf, ← SetOrder.map_sortBy, h]
  rfl

end Der

end Pkix
