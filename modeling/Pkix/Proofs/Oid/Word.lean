import Pkix.Oid.Word
import Pkix.Proofs.Oid
import Pkix.Proofs.Oid.Text

/-!
# Identifiers need no more than 64 bits

Reading and writing the content octets of an identifier on 64-bit words always has an answer, and it
is the one that numbers of any size give: no operation on the way has a result that a word cannot
hold.

* `Word.add?_eq_some` and so on: words on which an operation has an answer.
* `Base128.encodeWord?_eq`, `Base128.decodeWordFrom?_eq`: groups of seven bits.
* `Oid.ofContentWords?_eq`, `Oid.contentWords?_words`: content octets.
-/

namespace Pkix

/-! ## Operations on words -/

namespace Word

theorem size_eq : UInt64.size = 18446744073709551616 := rfl

theorem add?_eq_some {a b : UInt64} (h : a.toNat + b.toNat < UInt64.size) :
    ∃ c, add? a b = some c ∧ c.toNat = a.toNat + b.toNat := by
  refine ⟨a + b, by simp [add?, h], ?_⟩
  rw [UInt64.toNat_add]
  exact Nat.mod_eq_of_lt h

theorem mul?_eq_some {a b : UInt64} (h : a.toNat * b.toNat < UInt64.size) :
    ∃ c, mul? a b = some c ∧ c.toNat = a.toNat * b.toNat := by
  refine ⟨a * b, by simp [mul?, h], ?_⟩
  rw [UInt64.toNat_mul]
  exact Nat.mod_eq_of_lt h

theorem sub?_eq_some {a b : UInt64} (h : b.toNat ≤ a.toNat) :
    ∃ c, sub? a b = some c ∧ c.toNat = a.toNat - b.toNat := by
  have hle : b ≤ a := UInt64.le_iff_toNat_le.mpr h
  exact ⟨a - b, by simp [sub?, hle], UInt64.toNat_sub_of_le a b hle⟩

/-- Seven bits of `a` are lost at the high end of a word only if one of them is set. -/
theorem shiftLeft?_seven {a : UInt64} (h : a.toNat * 128 < UInt64.size) :
    ∃ c, shiftLeft? a 7 = some c ∧ c.toNat = a.toNat <<< 7 := by
  have hshift : a.toNat <<< 7 = a.toNat * 128 := Nat.shiftLeft_eq _ _
  refine ⟨a <<< 7, ?_, ?_⟩
  · rw [← hshift] at h
    exact if_pos ⟨by decide, h⟩
  · rw [UInt64.toNat_shiftLeft]
    exact Nat.mod_eq_of_lt (hshift ▸ h)

theorem shiftRight_seven (w : UInt64) : (w >>> 7).toNat = w.toNat / 128 := by
  rw [UInt64.toNat_shiftRight]
  exact Nat.shiftRight_eq_div_pow _ _

theorem eq_zero_iff {w : UInt64} : w = 0 ↔ w.toNat = 0 := UInt64.toNat_inj.symm

end Word

/-! ## Groups of seven bits -/

namespace Base128

theorem toNat_low (x : UInt8) : (x &&& 0x7F).toNat = x.toNat % 128 := by
  rw [UInt8.toNat_and]
  exact Nat.and_two_pow_sub_one_eq_mod x.toNat 7

/-- The high bit of `x` is not set in numbers below 128. -/
theorem and_0x80_eq_zero {x : UInt8} : x &&& 0x80 = 0 ↔ x.toNat < 128 := by
  have hall : ∀ n < 256, n &&& 128 = 0 ↔ n < 128 := by decide +kernel
  rw [octet_eq_zero, UInt8.toNat_and]
  exact hall _ x.toNat_lt

/-- An octet `x` with its high bit set counts 128 more. -/
theorem toNat_or_0x80 {x : UInt8} (h : x.toNat < 128) : (x ||| 0x80).toNat = x.toNat + 128 := by
  have hall : ∀ n < 128, n ||| 128 = n + 128 := by decide +kernel
  rw [UInt8.toNat_or]
  exact hall _ h

theorem toNat_group (w : UInt64) : (w &&& 0x7F).toUInt8.toNat = w.toNat % 128 := by
  have hlow : (w &&& 0x7F).toNat = w.toNat % 128 := by
    rw [UInt64.toNat_and]
    exact Nat.and_two_pow_sub_one_eq_mod w.toNat 7
  rw [UInt64.toNat_toUInt8, hlow]
  omega

/-- The groups of a word `w` that does not need more places than `room`, those before the last one
marked. -/
theorem groups?_eq_some {room : Nat} {w : UInt64} (h : w.toNat < 1 <<< (7 * room))
    (hroom : 0 < room) :
    ∃ before, groups? room w = some ((w &&& 0x7F).toUInt8 :: before) ∧
      (before.map (· ||| 0x80)).reverse = leading (w.toNat / 128) := by
  induction room generalizing w with
  | zero => omega
  | succ room ih =>
    have hshift := Word.shiftRight_seven w
    by_cases hw : w >>> 7 = 0
    · refine ⟨[], by simp [groups?, hw], ?_⟩
      rw [← hshift, Word.eq_zero_iff.mp hw, leading_zero]
      rfl
    · have hne : w.toNat / 128 ≠ 0 := by rwa [Word.eq_zero_iff, hshift] at hw
      have hnext : (w >>> 7).toNat < 1 <<< (7 * room) := by
        rw [show 7 * (room + 1) = 7 * room + 7 by omega, Nat.shiftLeft_add,
          Nat.shiftLeft_eq _ 7] at h
        omega
      have hpos : 0 < room := by
        rcases Nat.eq_zero_or_pos room with rfl | hpos
        · simp [hshift] at hnext
          omega
        · exact hpos
      obtain ⟨before, hgroups, hbefore⟩ := ih hnext hpos
      refine ⟨((w >>> 7) &&& 0x7F).toUInt8 :: before, ?_, ?_⟩
      · rw [groups?, if_neg hw, hgroups]
        rfl
      have hgroup := toNat_group (w >>> 7)
      have hmark : ((w >>> 7) &&& 0x7F).toUInt8 ||| 0x80 =
          UInt8.ofNat (w.toNat / 128 % 128 + 128) := by
        apply UInt8.toNat_inj.mp
        rw [toNat_or_0x80 (by omega), hgroup, hshift, UInt8.toNat_ofNat']
        omega
      rw [List.map_cons, List.reverse_cons, hbefore, hshift, hmark, leading_of_ne_zero hne]

/-- Ten places are enough, and a word `w` is written as the number that it is. -/
theorem encodeWord?_eq (w : UInt64) : encodeWord? w = some (encode w.toNat) := by
  have hlt : w.toNat < 1 <<< (7 * 10) := Nat.lt_trans w.toNat_lt (by decide)
  obtain ⟨before, hgroups, hbefore⟩ := groups?_eq_some hlt (by decide)
  have hlast : (w &&& 0x7F).toUInt8 = UInt8.ofNat (w.toNat % 128) := by
    apply UInt8.toNat_inj.mp
    rw [toNat_group, UInt8.toNat_ofNat']
    omega
  simp only [encodeWord?, hgroups, Option.map_some, marked, hbefore, hlast, encode]

/-- A word `acc` that leaves room for seven more bits takes another group, that of `x`. -/
theorem toNat_shifted_or {acc shifted : UInt64} (x : UInt8) (h : shifted.toNat = acc.toNat <<< 7) :
    (shifted ||| (x &&& 0x7F).toUInt64).toNat = acc.toNat * 128 + x.toNat % 128 := by
  have hlt : x.toNat % 128 < Nat.pow 2 7 := Nat.mod_lt _ (by decide)
  rw [UInt64.toNat_or, UInt8.toNat_toUInt64, toNat_low, h,
    ← Nat.shiftLeft_add_eq_or_of_lt hlt acc.toNat, Nat.shiftLeft_eq]

/-- The word so far, `acc`, is too large for another group exactly where the number is. -/
theorem shiftRight_57 {acc : UInt64} : acc >>> 57 ≠ 0 ↔ UInt64.size ≤ acc.toNat * 128 := by
  have hshift : (acc >>> 57).toNat = acc.toNat / 144115188075855872 := by
    rw [UInt64.toNat_shiftRight]
    exact Nat.shiftRight_eq_div_pow _ _
  rw [ne_eq, Word.eq_zero_iff, hshift, Word.size_eq]
  omega

/-- Words are read by `decodeWordFrom?` as numbers below the bound are. -/
theorem decodeWordFrom?_eq (acc : UInt64) (b : Bytes) :
    (decodeWordFrom? acc b).map (·.map (Prod.map UInt64.toNat id)) =
      some (decodeFrom UInt64.size acc.toNat b) := by
  induction b generalizing acc with
  | nil => rfl
  | cons x xs ih =>
    have hx := x.toNat_lt
    rw [decodeWordFrom?, decodeFrom]
    by_cases hacc : UInt64.size ≤ acc.toNat * 128
    · rw [if_pos (shiftRight_57.mpr hacc), if_pos hacc]
      rfl
    · obtain ⟨shifted, hshifted, hvalue⟩ := Word.shiftLeft?_seven (Nat.not_le.mp hacc)
      have hnext := toNat_shifted_or x hvalue
      rw [if_neg (mt shiftRight_57.mp hacc), if_neg hacc, hshifted]
      by_cases hlast : x.toNat < 128
      · rw [if_pos (octet_lt_0x80.mpr hlast)]
        simp only [and_0x80_eq_zero, hlast, if_true, Option.map_some, Except.map, Prod.map, hnext,
          id_eq, Nat.mod_eq_of_lt hlast]
      · rw [if_neg (mt octet_lt_0x80.mp hlast)]
        simp only [and_0x80_eq_zero, hlast, if_false, ih, hnext,
          show x.toNat % 128 = x.toNat - 128 by omega]

theorem decodeWord?_eq {b : Bytes} (h : b ≠ []) :
    (decodeWord? b).map (·.map (Prod.map UInt64.toNat id)) = some (decode UInt64.size b) := by
  cases b with
  | nil => exact absurd rfl h
  | cons x xs =>
    rw [decodeWord?, decode]
    split
    · rfl
    · exact decodeWordFrom?_eq 0 _

end Base128

/-! ## Content octets -/

namespace Oid

section

variable {b rest : Bytes} {done : List UInt64} {w : UInt64} {fault : Base128.Fault}

theorem words?_of_fault (hb : b ≠ []) (h : Base128.decodeWord? b = some (.error fault)) :
    words? b done = some (.error (.malformed (faultCause fault))) := by
  rw [words?, if_neg hb]
  split <;> simp_all

theorem words?_of_word (hb : b ≠ []) (h : Base128.decodeWord? b = some (.ok (w, rest))) :
    words? b done = words? rest (w :: done) := by
  rw [words?, if_neg hb]
  split <;> simp_all

end

/-- The words that fill the octets `b` are the numbers that do. -/
theorem words?_eq (b : Bytes) (done : List UInt64) :
    (words? b done).map (·.map (List.map UInt64.toNat)) =
      some (numbers b (done.map UInt64.toNat)) := by
  induction b, done using words?.induct with
  | case1 done =>
    rw [words?, numbers, if_pos rfl, if_pos rfl, ← List.map_reverse]
    rfl
  | case2 b done hb hword =>
    have hnumber := Base128.decodeWord?_eq hb
    rw [hword] at hnumber
    cases hnumber
  | case3 b done hb fault hword =>
    have hnumber := Base128.decodeWord?_eq hb
    rw [hword] at hnumber
    rw [words?_of_fault hb hword, numbers_of_fault hb (Option.some.inj hnumber.symm)]
    rfl
  | case4 b done hb w rest hword hlt ih =>
    have hnumber := Base128.decodeWord?_eq hb
    rw [hword] at hnumber
    rw [words?_of_word hb hword, numbers_of_number hb (Option.some.inj hnumber.symm), ih]
    rfl

theorem splitWord?_eq (w : UInt64) :
    ∃ root child, splitWord? w = some (root, child) ∧
      (root.toNat, child.toNat) = splitLeading w.toNat := by
  unfold splitWord? splitLeading
  by_cases h40 : w.toNat < 40
  · exact ⟨0, w, by simp [UInt64.lt_iff_toNat_lt, h40], by simp [h40]⟩
  · by_cases h80 : w.toNat < 80
    · obtain ⟨child, hchild, hvalue⟩ :=
        Word.sub?_eq_some (a := w) (b := 40) (by simpa using h40)
      exact ⟨1, child, by simp [UInt64.lt_iff_toNat_lt, h40, h80, hchild],
        by simp [h40, h80, hvalue]⟩
    · obtain ⟨child, hchild, hvalue⟩ :=
        Word.sub?_eq_some (a := w) (b := 80) (by simpa using h80)
      exact ⟨2, child, by simp [UInt64.lt_iff_toNat_lt, h40, h80, hchild],
        by simp [h40, h80, hvalue]⟩

/-- The first number that is read, `n`, makes two arcs. -/
theorem map_arcs_ofContent {content : Bytes} {n : Nat} {ns : List Nat}
    (h : numbers content [] = .ok (n :: ns)) :
    (ofContent content).map arcs = .ok ((splitLeading n).1 :: (splitLeading n).2 :: ns) := by
  obtain ⟨ms, hms, -, hlt⟩ := exists_of_numbers h
  cases hms
  simp only [ofContent, h, ofArcs, dif_pos (wellFormed_splitLeading hlt)]
  rfl

/-- **Reading on words.** `ofContentWords?` has an answer for all octets `content`, that of numbers
of any size. -/
theorem ofContentWords?_eq (content : Bytes) :
    (ofContentWords? content).map (·.map (List.map UInt64.toNat)) =
      some ((ofContent content).map arcs) := by
  unfold ofContentWords?
  by_cases hempty : content = []
  · subst hempty
    simp [ofContent, numbers, Except.map]
  · have hwords := words?_eq content []
    rw [if_neg hempty]
    split
    · rename_i h
      simp [h] at hwords
    · rename_i e h
      have hnumbers : numbers content [] = .error e := by simpa [h, Except.map] using hwords.symm
      simp [ofContent, hnumbers, Except.map]
    · rename_i h
      -- octets make at least one number, so there is a first one
      have hnumbers : numbers content [] = .ok [] := by simpa [h, Except.map] using hwords.symm
      obtain ⟨ms, hms, hcontent, -⟩ := exists_of_numbers hnumbers
      cases hms
      exact absurd hcontent hempty
    · rename_i w rest h
      have hnumbers : numbers content [] = .ok (w.toNat :: rest.map UInt64.toNat) := by
        simpa [h, Except.map] using hwords.symm
      obtain ⟨root, child, hsplit, heq⟩ := splitWord?_eq w
      rw [map_arcs_ofContent hnumbers, ← heq, hsplit]
      rfl

theorem joinWords?_eq {root child : UInt64}
    (h : joinLeading root.toNat child.toNat < UInt64.size) :
    ∃ joined, joinWords? root child = some joined ∧
      joined.toNat = joinLeading root.toNat child.toNat := by
  unfold joinLeading at h ⊢
  have hforty : root.toNat * (40 : UInt64).toNat = root.toNat * 40 := rfl
  obtain ⟨scaled, hscaled, hvalue⟩ := Word.mul?_eq_some (a := root) (b := 40) (by omega)
  obtain ⟨joined, hjoined, hsum⟩ := Word.add?_eq_some (a := scaled) (b := child) (by omega)
  exact ⟨joined, by simp [joinWords?, hscaled, hjoined], by omega⟩

theorem map_toNat_words (o : Oid) : o.words.map UInt64.toNat = o.arcs := by
  have hword : ∀ a ∈ o.arcs, (UInt64.toNat ∘ UInt64.ofNat) a = id a :=
    fun a ha => UInt64.toNat_ofNat_of_lt' (o.lt_size_of_mem_arcs a ha)
  rw [words, List.map_map, List.map_congr_left hword, List.map_id]

/-- **Writing on words.** `contentWords?` has an answer for all identifiers `o`, and it is their
content octets. -/
theorem contentWords?_words (o : Oid) : contentWords? o.words = some o.content := by
  have hwords := o.map_toNat_words
  have hvalid := o.valid
  unfold content
  generalize o.words = ws at hwords
  rw [← hwords] at hvalid ⊢
  match ws, hvalid with
  | root :: child :: rest, hvalid =>
    simp only [List.map_cons, wellFormed, Bool.and_eq_true] at hvalid
    obtain ⟨joined, hjoined, hvalue⟩ := joinWords?_eq (joinLeading_lt hvalid.1)
    have hencodings : (joined :: rest).mapM Base128.encodeWord? =
        some ((joined :: rest).map fun w => Base128.encode w.toNat) :=
      mapM_eq_some_map fun w _ => Base128.encodeWord?_eq w
    rw [contentWords?, hjoined, Option.bind_eq_bind, Option.bind_some, hencodings]
    simp [hvalue, List.flatMap_def, Function.comp_def]

end Oid

end Pkix
