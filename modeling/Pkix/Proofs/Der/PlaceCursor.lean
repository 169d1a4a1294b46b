import Pkix.Proofs.Der.Place
import Pkix.Proofs.Der.Sequence

/-!
# Reading at a place and at a cursor

What is read by indices is what is read from the octets to come.

* `Cursor.place`: the index of a cursor into its buffer.
* `Cursor.element_place`: the next element. `Cursor.collect_place`: all elements, where room can be
  made for as many as are expected.
* `Cursor.inside_of_value`: elements end in the buffer.
-/

namespace Pkix.Der

open Checked

namespace Place

/-- One turn of `p.collectFrom`, and the turns after it where it goes on. -/
theorem collectFrom_eq (p : Place) (items : Array Value) :
    (p.collectFrom items).run = (p.turn items >>= fun
      | .ends items => return items
      | .goesOn next items => next.collectFrom items : Checked (Array Value)).run := by
  rw [collectFrom, run_bind]
  split <;> simp [*]

/-- Where there is no room for what is `expected`, `p.collect` stops before anything is read. -/
theorem collect_eq_none {p : Place} {expected : Nat} (h : ¬p.limits.RoomFor expected) :
    (p.collect expected).run = none := by
  have hreserve : reserve? (min expected p.limits.maxElements) = none := if_neg h
  rw [collect, run_bind, hreserve]
  rfl

end Place

/-- The element that is cut out of a buffer where `v` stands. -/
def Element.ofValue (v : Value) : Element := ⟨v.tag, v.content, v.octets⟩

namespace Cursor

/-- The place of the cursor `c`. -/
def place (c : Cursor) : Place := ⟨c.buffer, c.position, c.limits⟩

theorem isEmpty_place (c : Cursor) : c.place.isEmpty = c.isEmpty := by
  rw [isEmpty, c.rest_eq, Bool.eq_iff_iff, Place.isEmpty, decide_eq_true_eq, List.isEmpty_iff,
    List.drop_eq_nil_iff]
  rfl

theorem peek_place (c : Cursor) : c.place.peek = c.peek := by
  rw [peek, c.rest_eq, List.head?_drop]
  rfl

variable {c : Cursor}

theorem element_place (h : c.place.Inside) :
    c.place.element.run = some (c.value.map fun (v, next) => (.ofValue v, next.place)) := by
  have hrest : c.rest = c.place.buffer.drop c.place.position := c.rest_eq
  rw [Place.element_eq h, value, ← hrest]
  cases Value.first c.rest <;> rfl

/-- The next element `v` ends in the buffer, and its content is no longer than the buffer. -/
theorem inside_of_value {next : Cursor} {v : Value} (h : c.place.Inside)
    (hvalue : c.value = .ok (v, next)) :
    next.place.Inside ∧ v.content.length < 1 <<< 63 := by
  obtain ⟨hstep, -⟩ := value_eq_ok.mp hvalue
  have hle := hstep.length_le
  have hcontent := v.length_content_le
  have hlt := h.length_lt
  have hposition := h.position_le
  rw [c.rest_eq, List.length_drop] at hle
  have hbuffer : c.place.buffer = c.buffer := rfl
  refine ⟨⟨?_, ?_⟩, ?_⟩
  · show next.position ≤ next.buffer.length
    rw [hstep.position, hstep.buffer]
    have : c.position ≤ c.buffer.length := hposition
    omega
  · show next.buffer.length < _
    rwa [hstep.buffer]
  · rw [hbuffer] at hlt
    omega

theorem value_of_expect {next : Cursor} {v : Value} {tag : UInt8}
    (h : c.expect tag = .ok (v, next)) : c.value = .ok (v, next) := by
  simp only [expect, bind_eq_ok, Prod.exists, ite_error_eq_ok, pure_eq_ok, Prod.mk.injEq] at h
  obtain ⟨w, next', hvalue, -, rfl, rfl⟩ := h
  exact hvalue

theorem value_of_enter {inner next : Cursor} {tag : UInt8} (h : c.enter tag = .ok (inner, next)) :
    ∃ v, c.value = .ok (v, next) ∧ inner = ofBuffer v.content c.limits := by
  simp only [enter, bind_eq_ok, Prod.exists, pure_eq_ok, Prod.mk.injEq] at h
  obtain ⟨v, next', hexpect, rfl, rfl⟩ := h
  exact ⟨v, value_of_expect hexpect, rfl⟩

theorem value_of_oid {next : Cursor} {id : Oid} (h : c.oid = .ok (id, next)) :
    ∃ v, c.value = .ok (v, next) := by
  simp only [oid, bind_eq_ok, Prod.exists, pure_eq_ok, Prod.mk.injEq] at h
  obtain ⟨v, next', hexpect, _, -, -, rfl⟩ := h
  exact ⟨v, value_of_expect hexpect⟩

theorem inside_of_parameters {next : Cursor} {v : Option Value} (h : c.place.Inside)
    (hparameters : Algorithm.readParameters c = .ok (v, next)) : next.place.Inside := by
  unfold Algorithm.readParameters at hparameters
  split at hparameters
  · cases hparameters
    exact h
  · simp only [bind_eq_ok, Prod.exists] at hparameters
    obtain ⟨w, next', hvalue, hparameters⟩ := hparameters
    have hsame : next' = next := by
      split at hparameters
      · obtain ⟨-, -, hparameters⟩ := bind_eq_ok.mp hparameters
        cases hparameters
        rfl
      · cases hparameters
        rfl
    rw [← hsame]
    exact (inside_of_value h hvalue).1

theorem value_place (h : c.place.Inside) :
    c.place.value.run = some (c.value.map fun (v, next) => (v, next.place)) := by
  rw [Place.value, run_bind, element_place h]
  cases c.value <;> rfl

theorem raw_place (h : c.place.Inside) :
    c.place.raw.run = some (c.raw.map fun (b, next) => (b, next.place)) := by
  rw [Place.raw, run_bind, element_place h, value, raw]
  cases hfirst : Value.first c.rest with
  | error e => rfl
  | ok v =>
    have htake : c.rest.take v.size = v.octets := by
      rw [← Value.length_octets]
      exact (List.prefix_iff_eq_take.mp (Value.first_eq_ok.mp hfirst).1).symm
    show _ = some (Except.ok (c.rest.take v.size, _))
    rw [htake]
    rfl

theorem tagged_place (h : c.place.Inside) (tag : UInt8) :
    (c.place.tagged tag).run =
      some ((c.expect tag).map fun (v, next) => (.ofValue v, next.place)) := by
  refine run_bind_map (element_place h) fun (v, next) _ => ?_
  by_cases htag : v.is tag = true
  · have htag' : (Element.ofValue v).tag.isOctet tag = true := htag
    simp only [htag, htag', if_true]
    rfl
  · have htag' : ¬(Element.ofValue v).tag.isOctet tag = true := htag
    simp only [if_neg htag, if_neg htag']
    rfl

theorem expect_place (h : c.place.Inside) (tag : UInt8) :
    (c.place.expect tag).run = some ((c.expect tag).map fun (v, next) => (v, next.place)) := by
  rw [Place.expect, run_bind, tagged_place h]
  cases c.expect tag <;> rfl

theorem optional_place (h : c.place.Inside) (tag : UInt8) :
    (c.place.optional tag).run = some ((c.optional tag).map fun (v, next) => (v, next.place)) := by
  rw [Place.optional, optional, peek_place]
  by_cases hpeek : c.peek = some tag
  · rw [if_pos hpeek, if_pos hpeek]
    exact run_bind_map (expect_place h tag) fun _ _ => rfl
  · rw [if_neg hpeek, if_neg hpeek]
    rfl

theorem enter_place (h : c.place.Inside) (tag : UInt8) :
    (c.place.enter tag).run =
      some ((c.enter tag).map fun (inner, next) => (inner.place, next.place)) :=
  run_bind_map (tagged_place h tag) fun _ _ => rfl

theorem finish_place (h : c.place.Inside) : c.place.finish.run = some (c.finish.map id) := by
  rw [Place.finish, finish, isEmpty_place]
  by_cases hempty : c.isEmpty = true
  · rw [if_pos hempty, if_pos hempty]
    rfl
  · have hleft : c.rest.length = c.place.buffer.length - c.place.position := by
      rw [c.rest_eq, List.length_drop]
      rfl
    rw [if_neg hempty, if_neg hempty, run_bind_of_ok (run_difference h.position_le), ← hleft]
    rfl

theorem rest_place (h : c.place.Inside) : c.place.rest.run = some (.ok c.rest) := by
  rw [c.rest_eq]
  exact run_require_some (slice?_length h.position_le)

/-! ### The loop over all elements -/

/-- What a turn comes to, with `next.place` for the cursor `next`. -/
def turnPlace : Turn → Except Error Place.Turn
  | .ends outcome => outcome.map .ends
  | .goesOn next items => .ok (.goesOn next.place items)

theorem turn_place (h : c.place.Inside) (items : Array Value) :
    (c.place.turn items).run = some (turnPlace (c.turn items)) := by
  have hlimits : c.place.limits = c.limits := rfl
  rw [Place.turn, turn, isEmpty_place, hlimits]
  by_cases hempty : c.isEmpty = true
  · rw [if_pos hempty, if_pos hempty]
    rfl
  · rw [if_neg hempty, if_neg hempty]
    by_cases hfull : items.size = c.limits.maxElements
    · rw [if_pos hfull, if_pos hfull]
      rfl
    · rw [if_neg hfull, if_neg hfull, run_bind, value_place h]
      cases c.value <;> rfl

/-- A turn goes on after the element `v` that it has read. -/
theorem value_of_turn {next : Cursor} {items items' : Array Value}
    (h : c.turn items = .goesOn next items') : ∃ v, c.value = .ok (v, next) := by
  unfold turn at h
  split at h
  · cases h
  · split at h
    · cases h
    · split at h
      · cases h
      · rename_i v after hvalue
        cases h
        exact ⟨v, hvalue⟩

theorem collectFrom_place (h : c.place.Inside) (items : Array Value) :
    (c.place.collectFrom items).run = some ((c.collectFrom items).map id) := by
  induction c, items using collectFrom.induct with
  | case1 c items outcome hturn =>
    rw [collectFrom_eq, hturn, Place.collectFrom_eq, run_bind, turn_place h, hturn]
    cases outcome <;> rfl
  | case2 c items next items' hturn ih =>
    obtain ⟨v, hvalue⟩ := value_of_turn hturn
    rw [collectFrom_eq, hturn, Place.collectFrom_eq, run_bind, turn_place h, hturn]
    exact ih (inside_of_value h hvalue).1

theorem collect_place (h : c.place.Inside) {expected : Nat} (hroom : c.limits.RoomFor expected) :
    (c.place.collect expected).run = some ((c.collect expected).map id) := by
  have hreserve : reserve? (min expected c.place.limits.maxElements) = some () := if_pos hroom
  rw [Place.collect, run_bind_of_ok (run_require_some hreserve)]
  exact run_bind_map (collectFrom_place h _) fun _ _ => rfl

/-! ### Elements of universal types -/

theorem collectElements_place (h : c.place.Inside) (tag : UInt8) {expected : Nat}
    (hroom : c.limits.RoomFor expected) :
    (c.place.collectElements tag expected).run =
      some ((c.collectElements tag expected).map fun (vs, next) => (vs, next.place)) := by
  refine run_bind_map (enter_place h tag) fun (inner, next) henter => ?_
  obtain ⟨v, hvalue, rfl⟩ := value_of_enter henter
  obtain ⟨-, hcontent⟩ := inside_of_value h hvalue
  have hinner : (ofBuffer v.content c.limits).place.Inside := ⟨Nat.zero_le _, hcontent⟩
  exact run_bind_map (collect_place hinner hroom) fun _ _ => rfl

theorem integer_place (h : c.place.Inside) :
    c.place.integer.run = some (c.integer.map fun (n, next) => (n, next.place)) :=
  run_bind_map (expect_place h Tag.integer) fun (v, _) _ =>
    run_bind_map (run_liftM v.integer) fun _ _ => rfl

theorem word_place (h : c.place.Inside) :
    c.place.word.run = some (c.word.map fun (n, next) => (n, next.place)) :=
  run_bind_map (expect_place h Tag.integer) fun (v, _) _ =>
    run_bind_map (run_liftM v.word) fun _ _ => rfl

theorem oid_place (h : c.place.Inside) :
    c.place.oid.run = some (c.oid.map fun (id, next) => (id, next.place)) := by
  refine run_bind_map (tagged_place h Tag.oid) fun (v, next) hexpect => ?_
  obtain ⟨-, hcontent⟩ := inside_of_value h (value_of_expect hexpect)
  exact run_bind_map (Oid.ofContentAt_eq hcontent) fun _ _ => rfl

theorem octetString_place (h : c.place.Inside) :
    c.place.octetString.run = some (c.octetString.map fun (b, next) => (b, next.place)) :=
  run_bind_map (tagged_place h Tag.octetString) fun _ _ => rfl

theorem parameters_place (h : c.place.Inside) :
    c.place.parameters.run =
      some ((Algorithm.readParameters c).map fun (v, next) => (v, next.place)) := by
  rw [Place.parameters, Algorithm.readParameters, isEmpty_place]
  by_cases hempty : c.isEmpty = true
  · rw [if_pos hempty, if_pos hempty]
    rfl
  · rw [if_neg hempty, if_neg hempty]
    refine run_bind_map (value_place h) fun (v, next) _ => ?_
    by_cases hnull : v.is Tag.null = true
    · simp only [hnull, if_true]
      cases v.null <;> rfl
    · simp only [hnull]
      rfl

theorem algorithmOf_place (limits : Limits) {v : Value} (h : v.content.length < 1 <<< 63) :
    (Place.algorithmOf limits v).run = some ((Algorithm.ofValue limits v).map id) := by
  have hinside : (v.cursor limits).place.Inside := ⟨Nat.zero_le _, h⟩
  rw [Place.algorithmOf, Algorithm.ofValue]
  by_cases htag : v.is Tag.sequence = true
  · rw [if_pos htag, if_pos htag]
    refine run_bind_map (oid_place hinside) fun (id, c) hid => ?_
    obtain ⟨w, hvalue⟩ := value_of_oid hid
    obtain ⟨hc, -⟩ := inside_of_value hinside hvalue
    refine run_bind_map (parameters_place hc) fun (parameters, c') hparameters => ?_
    exact run_bind_map (finish_place (inside_of_parameters hc hparameters)) fun _ _ => rfl
  · rw [if_neg htag, if_neg htag]
    rfl

theorem algorithm_place (h : c.place.Inside) :
    c.place.algorithm.run = some ((Algorithm.read c).map fun (a, next) => (a, next.place)) := by
  refine run_bind_map (expect_place h Tag.sequence) fun (v, next) hexpect => ?_
  obtain ⟨hnext, hcontent⟩ := inside_of_value h (value_of_expect hexpect)
  have hlimits : next.limits = c.limits := (value_eq_ok.mp (value_of_expect hexpect)).1.limits
  show (Place.algorithmOf c.limits v >>= _).run =
    some (Except.map _ (Algorithm.ofValue next.limits v >>= _))
  rw [hlimits]
  exact run_bind_map (algorithmOf_place c.limits hcontent) fun _ _ => rfl

end Cursor

end Pkix.Der
