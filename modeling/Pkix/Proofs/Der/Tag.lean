import Pkix.Der.Tag.Word
import Pkix.Proofs.Der.Framing
import Pkix.Proofs.Oid.Word

/-!
# Tags need no more than 32 bits

Identifier octets that are read and written on 32-bit words are those of tags with numbers of any
size: no bit is lost on the way, and a number that a word does not hold is refused.

* `Base128.decode_of_le`: a number that reaches the bound is refused as too large.
* `Tag.numberFrom_eq`, `Tag.read_eq`: reading on words. `Tag.written_eq`: writing on words.
* `Tag.Reaches`: what the loop over a long number comes by; `Tag.Reaches.bounds`: how far it gets.
* `Tag.one_encoding`: a tag is read exactly where its identifier octets stand.
-/

namespace Pkix

/-! ## Numbers that are too large -/

namespace Base128

variable {bound n : Nat}

/-- A group more, `x`, is one too many for a number `n` that reaches `bound` with it. -/
theorem decodeFrom_of_le {b : Bytes} (hb : bound % 128 = 0) (h : bound ≤ n) {x : UInt8} :
    decodeFrom bound (n / 128) (x :: b) = .error .tooLarge := by
  rw [decodeFrom, if_pos (by omega)]

theorem decodeFrom_leading_of_le (hb : bound % 128 = 0) (h0 : 0 < bound) (h : bound ≤ n)
    (b : Bytes) : decodeFrom bound 0 (leading n ++ b) = .error .tooLarge := by
  induction n using Nat.strongRecOn generalizing b with
  | ind n ih =>
    rw [leading_of_ne_zero (by omega), List.append_assoc]
    by_cases hnext : bound ≤ n / 128
    · exact ih (n / 128) (by omega) hnext _
    · rw [decodeFrom_leading (by omega), List.singleton_append, decodeFrom_of_le hb h]

/-- A number `n` that does not stay below `bound` is refused, whatever follows it. -/
theorem decode_of_le (hb : bound % 128 = 0) (h0 : 0 < bound) (h : bound ≤ n) (b : Bytes) :
    decode bound (encode n ++ b) = .error .tooLarge := by
  have hhead := head?_encode n b
  have hfrom : decodeFrom bound 0 (encode n ++ b) = .error .tooLarge := by
    rw [encode, List.append_assoc]
    by_cases hnext : bound ≤ n / 128
    · exact decodeFrom_leading_of_le hb h0 hnext _
    · rw [decodeFrom_leading (by omega), List.singleton_append, decodeFrom_of_le hb h]
  cases hb : encode n ++ b with
  | nil =>
    rw [hb, decodeFrom] at hfrom
    cases hfrom
  | cons x xs =>
    rw [hb] at hhead hfrom
    rw [decode, if_neg (by simpa using hhead), hfrom]

end Base128

namespace Der.Tag

open Base128

/-! ## Bits of octets and words -/

/-- The bits of `x` spell the tag that `x` does as a number. -/
theorem ofBits_eq (x : UInt8) : ofBits x = ofOctet x := by
  have hall : ∀ n < 256, ofBits (UInt8.ofNat n) = ofOctet (UInt8.ofNat n) := by decide +kernel
  have h := hall x.toNat x.toNat_lt
  rwa [UInt8.ofNat_toNat] at h

theorem and_0x1F {x : UInt8} : x &&& 0x1F = 0x1F ↔ x.toNat % 32 = 31 := by
  rw [← UInt8.toNat_inj, UInt8.toNat_and]
  show x.toNat &&& 31 = 31 ↔ _
  rw [Nat.and_two_pow_sub_one_eq_mod x.toNat 5]

theorem mul?_128 (w : UInt32) :
    mul? w 128 = if UInt32.size ≤ w.toNat * 128 then none else some (w * 128) := by
  have h128 : (128 : UInt32).toNat = 128 := rfl
  unfold mul?
  rw [h128]
  by_cases h : UInt32.size ≤ w.toNat * 128
  · rw [if_neg (by omega), if_pos h]
  · rw [if_pos (by omega), if_neg h]

/-- A group `x` goes into the bits that multiplying `w` has made free. -/
theorem toNat_scaled_or {w : UInt32} (x : UInt8) (h : w.toNat * 128 < UInt32.size) :
    (w * 128 ||| (x &&& 0x7F).toUInt32).toNat = w.toNat * 128 + x.toNat % 128 := by
  have hscaled : (w * 128).toNat = w.toNat <<< 7 := by
    rw [UInt32.toNat_mul, Nat.shiftLeft_eq]
    exact Nat.mod_eq_of_lt h
  have hlt : x.toNat % 128 < Nat.pow 2 7 := Nat.mod_lt _ (by decide)
  rw [UInt32.toNat_or, UInt8.toNat_toUInt32, toNat_low, hscaled,
    ← Nat.shiftLeft_add_eq_or_of_lt hlt w.toNat, Nat.shiftLeft_eq]

theorem shiftRight_seven (w : UInt32) : (w >>> 7).toNat = w.toNat / 128 := by
  rw [UInt32.toNat_shiftRight]
  exact Nat.shiftRight_eq_div_pow _ _

theorem eq_zero_iff {w : UInt32} : w = 0 ↔ w.toNat = 0 := UInt32.toNat_inj.symm

theorem toNat_low_group (w : UInt32) : (w &&& 0x7F).toUInt8.toNat = w.toNat % 128 := by
  have hlow : (w &&& 0x7F).toNat = w.toNat % 128 := by
    rw [UInt32.toNat_and]
    exact Nat.and_two_pow_sub_one_eq_mod w.toNat 7
  rw [UInt32.toNat_toUInt8, hlow]
  omega

/-! ## Reading -/

section Loop

variable {b : Bytes} {number number' : UInt32} {index index' : Nat}

theorem numberFrom_of_ends {outcome : Except Error (UInt32 × Nat)}
    (h : numberTurn b number index = .ends outcome) : numberFrom b number index = outcome := by
  rw [numberFrom]
  split <;> simp_all

theorem numberFrom_of_goesOn (h : numberTurn b number index = .goesOn number' index') :
    numberFrom b number index = numberFrom b number' index' := by
  rw [numberFrom]
  split <;> simp_all

/-- What the loop over `b` answers, by what the groups that it reads make as a number. -/
def counted (b : Bytes) : Except Fault (Nat × Bytes) → Except Error (UInt32 × Nat)
  | .error fault => .error (.malformed (faultCause fault))
  | .ok (n, rest) => .ok (UInt32.ofNat n, b.length - rest.length)

/-- `numberFrom b` reads the groups from its `index` on, where the first one is not idle. -/
theorem numberFrom_eq (h : b[1]? ≠ some 0x80) :
    numberFrom b number index = counted b (decodeFrom UInt32.size number.toNat (b.drop index)) := by
  induction hrest : b.drop index generalizing number index with
  | nil =>
    have hnone : b[index]? = none := by
      rw [← List.head?_drop, hrest]
      rfl
    apply numberFrom_of_ends
    rw [numberTurn, hnone]
    rfl
  | cons x rest ih =>
    have hsome : b[index]? = some x := by
      rw [← List.head?_drop, hrest]
      rfl
    have hpad : ¬(index = 1 ∧ x = 0x80) := by
      rintro ⟨rfl, rfl⟩
      exact h hsome
    have hnext : b.drop (index + 1) = rest := by
      rw [← List.tail_drop, hrest]
      rfl
    by_cases hlarge : UInt32.size ≤ number.toNat * 128
    · rw [decodeFrom, if_pos hlarge]
      apply numberFrom_of_ends
      simp only [numberTurn, hsome, if_neg hpad, mul?_128, if_pos hlarge]
      rfl
    · have hvalue := toNat_scaled_or x (Nat.not_le.mp hlarge)
      rw [decodeFrom, if_neg hlarge]
      by_cases hlast : x.toNat < 128
      · rw [Nat.mod_eq_of_lt hlast] at hvalue
        have hindex : index + 1 = b.length - rest.length := by
          have hlt := (List.getElem?_eq_some_iff.mp hsome).1
          have hlen := congrArg List.length hnext
          rw [List.length_drop] at hlen
          omega
        rw [if_pos (octet_lt_0x80.mpr hlast), counted, ← hvalue, UInt32.ofNat_toNat, ← hindex]
        apply numberFrom_of_ends
        simp only [numberTurn, hsome, if_neg hpad, mul?_128, if_neg hlarge,
          if_pos (and_0x80_eq_zero.mpr hlast)]
      · have hx := x.toNat_lt
        rw [show x.toNat % 128 = x.toNat - 128 by omega] at hvalue
        rw [if_neg (mt octet_lt_0x80.mp hlast), ← hvalue, ← ih hnext]
        apply numberFrom_of_goesOn
        simp only [numberTurn, hsome, if_neg hpad, mul?_128, if_neg hlarge,
          if_neg (mt and_0x80_eq_zero.mp hlast)]

/-- From the octet after the first one on, `numberFrom` reads a number without idle groups. -/
theorem numberFrom_start (x : UInt8) (rest : Bytes) :
    numberFrom (x :: rest) 0 1 = counted (x :: rest) (Base128.decode UInt32.size rest) := by
  by_cases hpad : (x :: rest)[1]? = some 0x80
  · obtain ⟨after, rfl⟩ : ∃ after, rest = 0x80 :: after := by
      cases rest with
      | nil => cases hpad
      | cons y after => exact ⟨after, by simpa using hpad⟩
    apply numberFrom_of_ends
    simp only [numberTurn, hpad, and_self, if_true]
    rfl
  · rw [numberFrom_eq hpad]
    cases rest with
    | nil => rfl
    | cons y after =>
      rw [Base128.decode, if_neg (by simpa using hpad)]
      rfl

end Loop

/-- **Reading on words.** `read b` gives the tag that `ofOctets b` gives for numbers of any size,
and the octets that it takes up are those in front of what is left. -/
theorem read_eq (b : Bytes) :
    read b = (ofOctets b).map fun (t, rest) => (t, b.length - rest.length) := by
  cases b with
  | nil => rfl
  | cons x rest =>
    rw [read, ofOctets]
    by_cases hlow : x.toNat % 32 = 31
    · rw [if_neg (by simpa using and_0x1F.mpr hlow), if_neg (by simpa using hlow),
        numberFrom_start, ofBits_eq]
      cases hn : Base128.decode UInt32.size rest with
      | error fault => rfl
      | ok r =>
        obtain ⟨n, after⟩ := r
        have hsize : n < UInt32.size := ((Base128.decode_eq_ok (by decide)).mp hn).2
        have hshort : UInt32.ofNat n < 0x1F ↔ n < 31 := by
          rw [UInt32.lt_iff_toNat_lt, UInt32.toNat_ofNat_of_lt' hsize]
          rfl
        show (if UInt32.ofNat n < 0x1F then _ else _) = _
        by_cases h31 : n < 31
        · rw [if_pos (hshort.mpr h31)]
          simp only [if_pos h31]
          rfl
        · rw [if_neg (mt hshort.mp h31)]
          simp only [if_neg h31]
          rfl
    · rw [if_pos (mt and_0x1F.mp hlow), if_pos hlow, ofBits_eq]
      simp [Except.map]

theorem read_eq_ok {b : Bytes} {t : Tag} {n : Nat} :
    read b = .ok (t, n) ↔ t.octets <+: b ∧ n = t.octets.length := by
  have hmap : read b = .ok (t, n) ↔
      ∃ rest, ofOctets b = .ok (t, rest) ∧ b.length - rest.length = n := by
    rw [read_eq]
    cases ofOctets b with
    | error e => simp [Except.map]
    | ok r =>
      obtain ⟨u, rest⟩ := r
      simp [Except.map]
  rw [hmap]
  simp only [ofOctets_eq_ok]
  constructor
  · rintro ⟨rest, rfl, rfl⟩
    exact ⟨List.prefix_append _ _, by simp⟩
  · rintro ⟨⟨rest, rfl⟩, rfl⟩
    exact ⟨rest, rfl, by simp⟩

/-! ### How far the loop gets -/

/-- Turns from the first group of `b` on have come to the number and the index. -/
inductive Reaches (b : Bytes) : UInt32 → Nat → Prop
  | start : Reaches b 0 1
  | turn {number number' : UInt32} {index index' : Nat} (before : Reaches b number index)
      (goesOn : numberTurn b number index = .goesOn number' index') : Reaches b number' index'

/-- A turn that goes on makes `number` 128 times as large, and a first group counts. -/
theorem le_of_numberTurn {b : Bytes} {number number' : UInt32} {index index' : Nat}
    (h : numberTurn b number index = .goesOn number' index') :
    number.toNat * 128 ≤ number'.toNat ∧ (index = 1 → 0 < number'.toNat) := by
  unfold numberTurn at h
  cases hx : b[index]? with
  | none =>
    rw [hx] at h
    cases h
  | some x =>
    have hlt := x.toNat_lt
    simp only [hx, mul?_128] at h
    by_cases hpad : index = 1 ∧ x = 0x80
    · rw [if_pos hpad] at h
      cases h
    · rw [if_neg hpad] at h
      by_cases hlarge : UInt32.size ≤ number.toNat * 128
      · simp [if_pos hlarge] at h
      · have hvalue := toNat_scaled_or x (Nat.not_le.mp hlarge)
        simp only [if_neg hlarge, and_0x80_eq_zero] at h
        by_cases hlast : x.toNat < 128
        · rw [if_pos hlast] at h
          cases h
        · rw [if_neg hlast] at h
          cases h
          rw [hvalue]
          refine ⟨by omega, fun h1 => ?_⟩
          have hne : x.toNat ≠ 128 := fun he => hpad ⟨h1, octet_eq_0x80.mpr he⟩
          omega

/-- After the first turn `number` needs all the groups that were read. -/
theorem Reaches.le_toNat {b : Bytes} {number : UInt32} {index : Nat} (h : Reaches b number index) :
    index = 1 ∨ ∃ k, index = k + 2 ∧ 1 <<< (7 * k) ≤ number.toNat := by
  induction h with
  | start => exact .inl rfl
  | turn _ goesOn ih =>
    obtain ⟨hscaled, hfirst⟩ := le_of_numberTurn goesOn
    obtain ⟨-, rfl⟩ := lt_of_numberTurn goesOn
    right
    obtain h1 | ⟨k, rfl, hk⟩ := ih
    · exact ⟨0, by omega, hfirst h1⟩
    · refine ⟨k + 1, rfl, ?_⟩
      rw [show 7 * (k + 1) = 7 * k + 7 by omega, Nat.shiftLeft_add, Nat.shiftLeft_eq _ 7]
      omega

/-- The loop does not get past the fifth group: a sixth one ends it, so `index` is at most 6. -/
theorem Reaches.index_le {b : Bytes} {number : UInt32} {index : Nat} (h : Reaches b number index) :
    index ≤ 6 := by
  obtain rfl | ⟨k, rfl, hk⟩ := h.le_toNat
  · omega
  · have hlt := number.toNat_lt
    have hk : k < 5 := by
      by_contra hge
      have hmono : 1 <<< (7 * 5) ≤ 1 <<< (7 * k) := by
        rw [Nat.shiftLeft_eq, Nat.shiftLeft_eq]
        exact Nat.mul_le_mul_left 1 (Nat.pow_le_pow_right (by decide) (by omega))
      have h35 : 1 <<< (7 * 5) = 34359738368 := rfl
      omega
    omega

/-- There is no endless run of turns: each `numberTurn` passes an octet of `b`. -/
theorem wellFounded_numberTurn (b : Bytes) : WellFounded fun after before : UInt32 × Nat =>
    numberTurn b before.1 before.2 = .goesOn after.1 after.2 := by
  refine Subrelation.wf (fun {after before} h => ?_)
    (measure fun s : UInt32 × Nat => b.length - s.2).wf
  have := lt_of_numberTurn h
  show b.length - after.2 < b.length - before.2
  omega

/-! ## Writing -/

/-- All elements but the last one, `y`, are changed by `f`. -/
theorem mapIdx_concat {α : Type} (f : α → α) (xs : List α) (y : α) :
    ((xs ++ [y]).mapIdx fun i x => if i < xs.length then f x else x) = xs.map f ++ [y] := by
  apply List.ext_getElem
  · simp
  · intro i _ _
    by_cases hi : i < xs.length <;> simp [List.getElem_append, hi]

/-- The bits of the first octet of `t` add up to the number that it is, `t.lead`. -/
theorem lead_eq (t : Tag) {low : UInt8} (h : low.toNat < 32) :
    t.cls.bits ||| (if t.constructed then 0x20 else 0) ||| low = t.lead low.toNat := by
  have hall : ∀ cls ∈ TagClass.all, ∀ constructed : Bool, ∀ n < 32,
      cls.bits ||| (if constructed then 0x20 else 0) ||| UInt8.ofNat n =
        UInt8.ofNat (cls.index * 64 + (if constructed then 32 else 0) + n) := by
    decide +kernel
  have hmem : t.cls ∈ TagClass.all := by cases t.cls <;> decide
  have heq := hall t.cls hmem t.constructed low.toNat h
  rwa [UInt8.ofNat_toNat] at heq

/-- The groups of the word `w`, each with its high bit set, are those of the number that it is. -/
theorem reverse_map_groups (w : UInt32) :
    (groups w).reverse.map (· ||| 0x80) = leading w.toNat := by
  induction w using groups.induct with
  | case1 =>
    rw [groups, if_pos rfl]
    exact leading_zero.symm
  | case2 w hw ih =>
    have hne : w.toNat ≠ 0 := mt eq_zero_iff.mpr hw
    have hmark : (w &&& 0x7F).toUInt8 ||| 0x80 = UInt8.ofNat (w.toNat % 128 + 128) := by
      apply UInt8.toNat_inj.mp
      rw [toNat_or_0x80 (by rw [toNat_low_group]; omega), toNat_low_group, UInt8.toNat_ofNat']
      omega
    rw [groups, if_neg hw, List.reverse_cons, List.map_append, ih, shiftRight_seven,
      leading_of_ne_zero hne, List.map_singleton, hmark]

/-- **Writing on words.** `t.written` is `t.octets`, which is for numbers of any size. -/
theorem written_eq (t : Tag) : t.written = t.octets := by
  have hshort : t.number < 0x1F ↔ t.number.toNat < 31 := UInt32.lt_iff_toNat_lt
  rw [written, octets]
  by_cases h : t.number.toNat < 31
  · have hlow : t.number.toUInt8.toNat = t.number.toNat := by
      rw [UInt32.toNat_toUInt8]
      omega
    simp only [if_pos h, if_pos (hshort.mpr h)]
    rw [lead_eq t (by omega), hlow]
  · have hne : ¬t.number = 0 := by
      rw [eq_zero_iff]
      omega
    have hgroups : groups t.number = (t.number &&& 0x7F).toUInt8 :: groups (t.number >>> 7) := by
      rw [groups, if_neg hne]
    have hlast : (t.number &&& 0x7F).toUInt8 = UInt8.ofNat (t.number.toNat % 128) := by
      apply UInt8.toNat_inj.mp
      rw [toNat_low_group, UInt8.toNat_ofNat']
      omega
    have hmapped := mapIdx_concat (fun group : UInt8 => group ||| 0x80)
      (groups (t.number >>> 7)).reverse (t.number &&& 0x7F).toUInt8
    rw [List.length_reverse] at hmapped
    simp only [if_neg h, if_neg (mt hshort.mp h)]
    rw [lead_eq t (by decide), hgroups, List.reverse_cons, List.length_cons, Nat.add_sub_cancel,
      hmapped, reverse_map_groups, shiftRight_seven, hlast, encode]
    rfl

/-! ## One encoding -/

/-- A long number `n` after the first octet `x` is read as the number that it is, or refused. -/
theorem read_long {x : UInt8} (hx : x.toNat % 32 = 31) (n : Nat) (rest : Bytes) :
    (31 ≤ n → n < UInt32.size → read (x :: (encode n ++ rest)) =
      .ok ({ ofOctet x with number := UInt32.ofNat n }, 1 + (encode n).length)) ∧
    (UInt32.size ≤ n →
      read (x :: (encode n ++ rest)) = .error (.malformed .tagTooLarge)) := by
  constructor
  · intro hlong hsize
    have hn : Base128.decode UInt32.size (encode n ++ rest) = .ok (n, rest) :=
      (Base128.decode_eq_ok (by decide)).mpr ⟨rfl, hsize⟩
    have hof : ofOctets (x :: (encode n ++ rest)) =
        .ok ({ ofOctet x with number := UInt32.ofNat n }, rest) := by
      rw [ofOctets, if_neg (by simpa using hx), hn]
      exact if_neg (by omega)
    rw [read_eq, hof]
    have hlen : (x :: (encode n ++ rest)).length - rest.length = 1 + (encode n).length := by
      simp only [List.length_cons, List.length_append]
      omega
    rw [← hlen]
    rfl
  · intro hsize
    have hn := decode_of_le (show UInt32.size % 128 = 0 by decide) (by decide) hsize rest
    rw [read_eq, ofOctets, if_neg (by simpa using hx), hn]
    rfl

/-- **Tags have one encoding, and it tells where it ends.** `read b` gives the tag `t` of `n` octets
exactly where the first `n` octets of `b` are `t.written`. A number `n` of 31 or more is read as it
is as long as 32 bits hold it, and refused as too large from then on. The loop over a long number
makes at most six turns, and no run of its turns is endless. -/
theorem one_encoding :
    (∀ (b : Bytes) (t : Tag) (n : Nat),
      read b = .ok (t, n) ↔ n ≤ b.length ∧ b.take n = t.written) ∧
    (∀ (x : UInt8) (n : Nat) (rest : Bytes), x.toNat % 32 = 31 →
      (31 ≤ n → n < UInt32.size → read (x :: (encode n ++ rest)) =
        .ok ({ ofOctet x with number := UInt32.ofNat n }, 1 + (encode n).length)) ∧
      (UInt32.size ≤ n →
        read (x :: (encode n ++ rest)) = .error (.malformed .tagTooLarge))) ∧
    (∀ (b : Bytes) (number : UInt32) (index : Nat), Reaches b number index → index ≤ 6) ∧
    (∀ b : Bytes, WellFounded fun after before : UInt32 × Nat =>
      numberTurn b before.1 before.2 = .goesOn after.1 after.2) := by
  refine ⟨fun b t n => ?_, fun x n rest hx => read_long hx n rest,
    fun b number index h => h.index_le, wellFounded_numberTurn⟩
  rw [read_eq_ok, written_eq]
  constructor
  · rintro ⟨hpre, rfl⟩
    exact ⟨hpre.length_le, (List.prefix_iff_eq_take.mp hpre).symm⟩
  · rintro ⟨hle, htake⟩
    rw [← htake]
    exact ⟨List.take_prefix n b, (List.length_take_of_le hle).symm⟩

/-- `read` at the largest number that a word holds and the one after it, each with an octet after
it. -/
theorem one_encoding_at_end_of_word :
    read [0x9F, 0x8F, 0xFF, 0xFF, 0xFF, 0x7F, 0x2A] = .ok (⟨.context, false, 4294967295⟩, 6) ∧
    read [0x9F, 0x90, 0x80, 0x80, 0x80, 0x00, 0x2A] = .error (.malformed .tagTooLarge) := by
  have hlong := one_encoding.2.1 0x9F
  have hlast : encode 4294967295 = [0x8F, 0xFF, 0xFF, 0xFF, 0x7F] := by decide +kernel
  have hnext : encode 4294967296 = [0x90, 0x80, 0x80, 0x80, 0x00] := by decide +kernel
  constructor
  · have h := (hlong 4294967295 [0x2A] rfl).1 (by decide) (by decide)
    rw [hlast] at h
    exact h
  · have h := (hlong 4294967296 [0x2A] rfl).2 (by decide)
    rwa [hnext] at h

end Der.Tag

end Pkix
