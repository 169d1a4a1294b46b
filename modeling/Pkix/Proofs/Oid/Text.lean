import Pkix.Oid.Codec
import Pkix.Proofs.Delimited
import Pkix.Proofs.Except

/-!
# The dotted text of an identifier

* `Oid.arcOfText?_toDigits`: the digits of a word are read as that word.
* `Oid.ofText_text`: the text of an identifier is read as that identifier, so `Oid.text_inj`:
  identifiers with the same text are the same.
* `Oid.notMem_text`: no equals sign stands in the text of an identifier.
-/

namespace Pkix.Oid

theorem arcs_ne_nil (o : Oid) : o.arcs ≠ [] := by
  intro h
  have := o.valid
  rw [h] at this
  cases this

theorem toList_text (o : Oid) :
    o.text.toList = ['.'].intercalate (o.arcs.map (Nat.toDigits 10)) := by
  simp [text, Function.comp_def, Nat.toList_repr]

theorem isDigit_of_mem_toDigits {n : Nat} : ∀ c ∈ Nat.toDigits 10 n, c.isDigit = true :=
  fun _ hc => Nat.isDigit_of_mem_toDigits (by omega) (by omega) hc

theorem notMem_toDigits {c : Char} (hc : c.isDigit = false) (n : Nat) : c ∉ Nat.toDigits 10 n := by
  intro h
  simp [isDigit_of_mem_toDigits c h] at hc

/-- The value of the digits of `n`, as a reader sums it up. -/
theorem foldl_toDigits (n : Nat) :
    (Nat.toDigits 10 n).foldl (fun n c => n * 10 + (c.toNat - 48)) 0 = n := by
  have hvalue : Nat.ofDigitChars 10 (Nat.toDigits 10 n) 0 = n := Nat.ofDigitChars_ten_toDigits
  simpa [Nat.ofDigitChars, Nat.mul_comm] using hvalue

theorem arcOfText?_toDigits {n : Nat} (h : n < UInt64.size) :
    arcOfText? (Nat.toDigits 10 n) = some n := by
  have hdigits : (Nat.toDigits 10 n).all Char.isDigit = true :=
    List.all_eq_true.mpr isDigit_of_mem_toDigits
  have hne : Nat.toDigits 10 n ≠ [] := Nat.toDigits_ne_nil
  unfold arcOfText?
  split
  · rename_i rest hplus
    have hmem : '+' ∈ Nat.toDigits 10 n := by simp [hplus]
    exact absurd hmem (notMem_toDigits (by decide) n)
  · simp [hne, hdigits, foldl_toDigits, h]

/-- The rules of the tree keep every arc of `o` below the size of a word. -/
theorem lt_size_of_mem_arcs (o : Oid) : ∀ a ∈ o.arcs, a < UInt64.size := by
  obtain ⟨arcs, valid⟩ := o
  match arcs, valid with
  | root :: child :: rest, valid =>
    simp only [wellFormed, leadingOk, Bool.and_eq_true, Bool.or_eq_true, List.all_eq_true,
      decide_eq_true_eq, beq_iff_eq] at valid
    have hsize : UInt64.size = 18446744073709551616 := rfl
    simp only [List.forall_mem_cons]
    exact ⟨by omega, by omega, valid.2⟩

/-- **Texts.** The text of an identifier `o` is read as `o`. -/
theorem ofText_text (o : Oid) : ofText o.text = .ok o := by
  have hsplit : o.text.toList.splitOn '.' = o.arcs.map (Nat.toDigits 10) := by
    rw [toList_text]
    refine List.splitOn_intercalate '.' ?_ (by simpa using o.arcs_ne_nil)
    intro digits hdigits
    obtain ⟨n, -, rfl⟩ := List.mem_map.mp hdigits
    exact notMem_toDigits (by decide) n
  have harcs : (o.arcs.map (Nat.toDigits 10)).mapM arcOfText? = some o.arcs := by
    rw [List.mapM_map, mapM_eq_some_map (k := id), List.map_id]
    exact fun a ha => arcOfText?_toDigits (o.lt_size_of_mem_arcs a ha)
  rw [ofText, hsplit, harcs]
  exact dif_pos o.valid

/-- A dotted text, `a.text`, stands for one identifier. -/
theorem text_inj {a b : Oid} (h : a.text = b.text) : a = b := by
  have ha := ofText_text a
  rw [h, ofText_text b] at ha
  exact (Except.ok.inj ha).symm

theorem notMem_text (o : Oid) : '=' ∉ o.text.toList := by
  intro h
  rw [toList_text] at h
  obtain h | ⟨digits, hdigits, h⟩ := mem_intercalate h
  · simp at h
  · obtain ⟨n, -, rfl⟩ := List.mem_map.mp hdigits
    exact notMem_toDigits (by decide) n h

end Pkix.Oid
