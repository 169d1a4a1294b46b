import Pkix.Der.Collect
import Pkix.Proofs.Der.Encoder

/-!
# A sequence is read as the values that were put into it

* `Cursor.collectFrom_eq_allFrom`: the turns from some elements on, by the room that is left.
* `Cursor.collect_eq_all`: how many elements were expected does not matter.
* `Cursor.wellFounded_turn`: there is no endless run of turns.
* `sequence_exact`: octets are read as a sequence exactly where they are what an encoder writes.
-/

namespace Pkix.Der

open Encoder

/-! ## The loop -/

/-- Room can be made under `limits` for as many elements as are `expected` and may come: fewer than
`2 ^ 63` octets, at 32 octets each. -/
def Limits.RoomFor (limits : Limits) (expected : Nat) : Prop :=
  min expected limits.maxElements * 32 < 1 <<< 63

namespace Cursor

variable {c : Cursor} {items : Array Value}

theorem collectFrom_eq (c : Cursor) (items : Array Value) :
    c.collectFrom items = match c.turn items with
      | .ends outcome => outcome
      | .goesOn next items => next.collectFrom items := by
  rw [collectFrom]
  split <;> simp [*]

/-- The loop from the elements `items` on reads what is left under the limit on the others,
`room`. -/
theorem collectFrom_eq_allFrom (room : Nat) (h : items.size + room = c.limits.maxElements) :
    c.collectFrom items = (c.allFrom items.toList.reverse room).map List.toArray := by
  induction room generalizing c items with
  | zero =>
    rw [collectFrom_eq, turn, allFrom]
    by_cases hempty : c.isEmpty = true
    · simp [hempty, Except.map]
    · rw [if_neg hempty, if_neg hempty, if_pos (show items.size = _ from h)]
      rfl
  | succ room ih =>
    rw [collectFrom_eq, turn, allFrom]
    by_cases hempty : c.isEmpty = true
    · simp [hempty, Except.map]
    · rw [if_neg hempty, if_neg hempty, if_neg (by omega)]
      cases hvalue : c.value with
      | error e => rfl
      | ok r =>
        obtain ⟨v, next⟩ := r
        have hlimits := (value_eq_ok.mp hvalue).1.limits
        have hnext : (items.push v).size + room = next.limits.maxElements := by
          rw [Array.size_push, hlimits]
          omega
        simpa using ih hnext

/-- How many elements were `expected` does not matter to `c.collect`. -/
theorem collect_eq_all (c : Cursor) (expected : Nat) : c.collect expected = c.all := by
  rw [collect, collectFrom_eq_allFrom c.limits.maxElements (by simp), all]
  cases h : c.allFrom [] c.limits.maxElements <;> simp [h, Except.map]

theorem collectElements_eq (c : Cursor) (tag : UInt8) (expected : Nat) :
    c.collectElements tag expected = c.elements tag := by
  simp only [collectElements, elements, collect_eq_all]

/-- There is no endless run of turns: each `Cursor.turn` leaves less to read. -/
theorem wellFounded_turn : WellFounded fun after before : Cursor × Array Value =>
    before.1.turn before.2 = .goesOn after.1 after.2 :=
  Subrelation.wf length_rest_lt_of_turn (measure fun s : Cursor × Array Value => s.1.rest.length).wf

end Cursor

theorem decodeSequence_eq (b : Bytes) (expected : Nat) :
    decodeSequence b expected = decodeElements b Tag.sequence := by
  simp only [decodeSequence, decodeCollected, decodeElements, Cursor.collectElements_eq]

/-! ## What is written and read -/

theorem Encoder.on_put_sequence (vs : List Value) (buffer : Bytes) :
    (Step.sequence vs).put.on buffer =
      (.ok (), buffer ++ Write.element Tag.sequence (Write.values vs)) := by
  rw [Step.put, octets_values, on_element]

theorem decodeSequence_eq_ok {b : Bytes} {items : List Value} {expected : Nat} :
    decodeSequence b expected = .ok items ↔
      (Step.sequence items).put.on [] = (.ok (), b) ∧ b.length ≤ Limits.default.maxInput ∧
        items.length ≤ Limits.default.maxElements := by
  rw [decodeSequence_eq, decodeElements_eq_ok (by decide), on_put_sequence, List.nil_append,
    Prod.mk.injEq, and_iff_right rfl, @eq_comm _ b]
  exact and_left_comm

/-- **Sequences are read as the values that were put into them.** `decodeSequence` reads octets `b`
as `items` exactly where they are what an encoder writes for `items` on a fresh buffer, no longer
than 64 MiB and of no more than 65536 elements, and however many elements are `expected`. A value
`v` has the children `items` exactly where it is constructed and its content is their encodings,
under the limit on their number and with contents shorter than `2 ^ 32` octets. Where room can be
made for the elements that are `expected`, `c.collect` gives all that are there, and its loop ends
for all octets. -/
theorem sequence_exact :
    (∀ (b : Bytes) (items : List Value) (expected : Nat), decodeSequence b expected = .ok items ↔
      (Step.sequence items).put.on [] = (.ok (), b) ∧ b.length ≤ 64 * 1024 * 1024 ∧
        items.length ≤ 65536) ∧
    (∀ (v : Value) (limits : Limits) (items : List Value), v.children limits = .ok items ↔
      v.tag.constructed = true ∧ items.length ≤ limits.maxElements ∧
        (∀ w ∈ items, w.content.length < UInt32.size) ∧ v.content = items.flatMap Value.octets) ∧
    (∀ (b : Bytes) (m n : Nat), decodeSequence b m = decodeSequence b n) ∧
    (∀ (c : Cursor) (expected : Nat), c.limits.RoomFor expected → c.collect expected = c.all) ∧
    WellFounded fun after before : Cursor × Array Value =>
      before.1.turn before.2 = .goesOn after.1 after.2 := by
  refine ⟨fun b items expected => decodeSequence_eq_ok, fun v limits items => ?_, fun b m n => ?_,
    fun c expected _ => c.collect_eq_all expected, Cursor.wellFounded_turn⟩
  · rw [Value.children_eq_ok]
    constructor
    · rintro ⟨hconstructed, hcontent, hframed, hcount⟩
      exact ⟨hconstructed, hcount, hframed, hcontent⟩
    · rintro ⟨hconstructed, hcount, hframed, hcontent⟩
      exact ⟨hconstructed, hcontent, hframed, hcount⟩
  · rw [decodeSequence_eq, decodeSequence_eq]

/-- `decodeSequence` at two elements of which none was expected. -/
example : decodeSequence [0x30, 0x05, 0x05, 0x00, 0x02, 0x01, 0x2A] 0 =
    .ok [.ofOctet Tag.null [], .ofOctet Tag.integer [0x2A]] := by
  decide +kernel

end Pkix.Der
