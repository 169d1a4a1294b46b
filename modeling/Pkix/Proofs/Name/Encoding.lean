import Pkix.Name.Rfc4514
import Pkix.Proofs.Der.Elements
import Pkix.Proofs.Except

/-!
# Relative names of one assertion are read back

A name whose relative names have one assertion each is encoded in one way, as nothing is there to be
put into order.

* `Assertion.written`, `RelativeName.written`, `Name.written`: the values that they are encoded as.
* `Name.ofRelativeNames_single`: relative names are read back from their encoding, unless it is
  longer than what is decoded.
-/

namespace Pkix

open Der

/-- The value that `a` is encoded as. -/
def Assertion.written (a : Assertion) : Value :=
  .ofOctet Tag.sequence (Write.oid a.type ++ a.value.octets)

theorem Assertion.octets_written (a : Assertion) : a.octets = a.written.octets :=
  (Value.octets_ofOctet (by decide) _).symm

theorem Assertion.ofValue_written {a : Assertion} (h : a.written.Framed) :
    ofValue a.written = .ok a := by
  have his : a.written.is Tag.sequence = true := Value.is_ofOctet _ _
  obtain ⟨hoid, hvalue⟩ := Write.length_lt_of_element_append h
  obtain ⟨c, hc, hrest, -⟩ := Cursor.exists_step (c := a.written.cursor .default)
    (b := Write.oid a.type) (r := a.value.octets) rfl
  obtain ⟨c', hc', hrest', -⟩ := Cursor.exists_step (r := []) (hrest.trans (List.append_nil _).symm)
  rw [ofValue, if_pos his]
  simp only [bind_eq_ok, pure_eq_ok, Prod.exists]
  exact ⟨_, _, Cursor.oid_eq_ok.mpr ⟨hc, hoid⟩, _, _,
    Cursor.value_eq_ok.mpr ⟨hc', Value.framed_of_length hvalue⟩, (),
    Cursor.finish_eq_ok.mpr hrest', rfl⟩

namespace RelativeName

/-- The relative name of one assertion, `a`. -/
def single (a : Assertion) : RelativeName := ⟨[a]⟩

/-- The value that `single a` is encoded as. -/
def written (a : Assertion) : Value := .ofOctet Tag.set (Write.values [a.written])

theorem octets_single (a : Assertion) : (single a).octets = (written a).octets := by
  have hsort : SetOrder.sort [a.octets] = [a.octets] := by simp [SetOrder.sort]
  rw [octets, single, List.map_singleton, Write.setOf, hsort, written,
    Value.octets_ofOctet (by decide), Assertion.octets_written, Write.values_eq_flatten]
  rfl

theorem ofValue_written {a : Assertion} (h : (written a).Framed) :
    ofValue .default (written a) = .ok (single a) := by
  have his : (written a).is Tag.set = true := Value.is_ofOctet _ _
  have hframed := Write.framed_of_values h
  have hchildren : (written a).children .default = .ok [a.written] :=
    Value.children_eq_ok.mpr ⟨rfl, rfl, hframed, (by decide : 1 ≤ 65536)⟩
  have hassertion := Assertion.ofValue_written (hframed _ List.mem_cons_self)
  rw [ofValue, if_pos his, hchildren]
  simp only [bind_eq_ok, mapM_eq_ok]
  exact ⟨_, rfl, [a], .cons hassertion .nil, rfl⟩

end RelativeName

namespace Name

/-- The value that relative names of one assertion each, `as`, are encoded as. -/
def written (as : List Assertion) : Value :=
  .ofOctet Tag.sequence (Write.values (as.map RelativeName.written))

variable {as : List Assertion}

theorem encode_single (as : List Assertion) :
    encode (as.map RelativeName.single) = (written as).octets := by
  rw [encode, written, Value.octets_ofOctet (by decide), Write.values, List.flatMap_map,
    List.flatMap_map]
  congr 2
  funext a
  exact RelativeName.octets_single a

theorem ofValue_written (h : (written as).Framed)
    (hcount : as.length ≤ Limits.default.maxElements) :
    ofValue .default (written as) = .ok ⟨as.map RelativeName.single, (written as).octets⟩ := by
  have his : (written as).is Tag.sequence = true := Value.is_ofOctet _ _
  have hframed := Write.framed_of_values h
  have hchildren : (written as).children .default = .ok (as.map RelativeName.written) :=
    Value.children_eq_ok.mpr ⟨rfl, rfl, hframed, by rwa [List.length_map]⟩
  rw [ofValue, if_pos his, hchildren]
  simp only [bind_eq_ok, mapM_eq_ok]
  refine ⟨_, rfl, as.map RelativeName.single, ?_, rfl⟩
  rw [List.forall₂_map_left_iff, List.forall₂_map_right_iff, List.forall₂_same]
  intro a ha
  exact RelativeName.ofValue_written (hframed _ (List.mem_map_of_mem ha))

/-- Relative names of one assertion each, `as`, are read back from their encoding, unless it is too
long. -/
theorem ofRelativeNames_single (hcount : as.length ≤ Limits.default.maxElements) :
    ofRelativeNames (as.map RelativeName.single) = do
      Limits.default.check (encode (as.map RelativeName.single))
      return ⟨as.map RelativeName.single, encode (as.map RelativeName.single)⟩ := by
  rw [ofRelativeNames, encode_single, ofOctets]
  by_cases hlong : Limits.default.maxInput < (written as).octets.length
  · rw [decode, Cursor.start, Limits.check, if_pos hlong]
    rfl
  · rw [Limits.check, if_neg hlong, decode_eq_ok.mpr ⟨Nat.not_lt.mp hlong, rfl⟩]
    refine ofValue_written (Value.framed_of_length ?_) hcount
    exact Nat.lt_of_le_of_lt (Nat.not_lt.mp hlong) (by decide)

end Name

end Pkix
