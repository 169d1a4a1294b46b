import Pkix.BigEndian
import Pkix.Bytes

/-!
# Numbers as octets: reading and writing are inverse

* `BigEndian.toNat_ofNat`, `BigEndian.ofNat_toNat`: unsigned numbers; the octets that are written
  do not begin with a zero.
* `BigEndian.length_ofNat_le_iff`: how many octets a number takes.
* `BigEndian.toNat_ofNatWidth`, `BigEndian.ofNatWidth_toNat`: numbers in a given number of octets.
* `BigEndian.toInt_ofInt`, `BigEndian.ofInt_toInt`: two's complement. `BigEndian.isMinimal` holds
  of exactly the octets that are written.
* `BigEndian.toInt_eq`: the sign counts as the power of two above the octets.
* `BigEndian.eq_ofInt_iff`: no other octets of a number are as few.
-/

namespace Pkix.BigEndian

/-! ## Unsigned numbers -/

theorem toNat_append (b : Bytes) (x : UInt8) : toNat (b ++ [x]) = toNat b * 256 + x.toNat := by
  simp [toNat, List.foldl_append]

theorem toNat_zero_cons (b : Bytes) : toNat (0 :: b) = toNat b := by simp [toNat]

theorem ofNat_zero : ofNat 0 = [] := by rw [ofNat, if_pos rfl]

theorem ofNat_of_ne_zero {n : Nat} (hn : n ≠ 0) :
    ofNat n = ofNat (n / 256) ++ [UInt8.ofNat n] := by
  rw [ofNat, if_neg hn]

theorem ofNat_ne_nil {n : Nat} (hn : n ≠ 0) : ofNat n ≠ [] := by simp [ofNat_of_ne_zero hn]

/-- The last octet is the remainder `x`, whatever number `m` stands before it. -/
theorem ofNat_append {m : Nat} {x : UInt8} (h : m * 256 + x.toNat ≠ 0) :
    ofNat (m * 256 + x.toNat) = ofNat m ++ [x] := by
  have hx := x.toNat_lt
  rw [ofNat_of_ne_zero h, show (m * 256 + x.toNat) / 256 = m by omega]
  congr 2
  apply UInt8.toNat_inj.mp
  rw [UInt8.toNat_ofNat']
  omega

theorem toNat_ofNat (n : Nat) : toNat (ofNat n) = n := by
  induction n using Nat.strongRecOn with
  | ind n ih =>
    by_cases h : n = 0
    · rw [h, ofNat_zero]
      rfl
    · rw [ofNat_of_ne_zero h, toNat_append, ih (n / 256) (by omega), UInt8.toNat_ofNat']
      omega

theorem ofNat_toNat {b : Bytes} (h : b.head? ≠ some 0) : ofNat (toNat b) = b := by
  obtain ⟨r, rfl⟩ : ∃ r : Bytes, b = r.reverse := ⟨b.reverse, by simp⟩
  induction r with
  | nil => exact ofNat_zero
  | cons x r ih =>
    rw [List.reverse_cons] at h ⊢
    rw [toNat_append]
    by_cases hr : r = []
    · subst hr
      have hx : x.toNat ≠ 0 := fun e => h (by simp [octet_eq_zero.mpr e])
      rw [ofNat_append (by simpa [toNat] using hx)]
      exact congrArg (· ++ [x]) ofNat_zero
    · have hne : r.reverse ≠ [] := by simpa using hr
      have ih := ih (by simpa [List.head?_append, Option.or_of_isSome, hr] using h)
      have hnz : toNat r.reverse ≠ 0 := fun e => hne (by rw [← ih, e, ofNat_zero])
      rw [ofNat_append (by omega), ih]

theorem head?_ofNat (n : Nat) : (ofNat n).head? ≠ some 0 := by
  induction n using Nat.strongRecOn with
  | ind n ih =>
    by_cases h : n = 0
    · simp [h, ofNat_zero]
    · rw [ofNat_of_ne_zero h]
      by_cases hq : n / 256 = 0
      · rw [hq, ofNat_zero]
        intro he
        have hx : UInt8.ofNat n = 0 := by simpa using he
        rw [octet_eq_zero, UInt8.toNat_ofNat'] at hx
        omega
      · have hsome := List.isSome_head?.mpr (ofNat_ne_nil hq)
        rw [List.head?_append, Option.or_of_isSome hsome]
        exact ih (n / 256) (by omega)

/-- `n` takes at most `k` octets if it is below the `k`-th power of 256. -/
theorem length_ofNat_le_iff {n k : Nat} : (ofNat n).length ≤ k ↔ n < 1 <<< (8 * k) := by
  induction k generalizing n with
  | zero =>
    by_cases h : n = 0
    · simp [h, ofNat_zero]
    · simp [ofNat_ne_nil h, h]
  | succ k ih =>
    by_cases h : n = 0
    · rw [h, ofNat_zero, Nat.shiftLeft_eq, Nat.one_mul]
      exact iff_of_true (Nat.zero_le _) (Nat.two_pow_pos _)
    · rw [ofNat_of_ne_zero h, List.length_append, List.length_singleton, Nat.succ_le_succ_iff, ih,
        show 8 * (k + 1) = 8 * k + 8 by omega, Nat.shiftLeft_add, Nat.shiftLeft_eq _ 8]
      omega

/-! ## Numbers of a given width -/

/-- A number `n` that is written in `width` octets is read again if it fits. -/
theorem toNat_ofNatWidth {width n : Nat} (h : n < 1 <<< (8 * width)) :
    toNat (ofNatWidth width n) = n := by
  induction width generalizing n with
  | zero =>
    have : n = 0 := by simpa using h
    rw [this]
    rfl
  | succ w ih =>
    rw [show 8 * (w + 1) = 8 * w + 8 by omega, Nat.shiftLeft_add, Nat.shiftLeft_eq _ 8] at h
    rw [ofNatWidth, toNat_append, ih (by omega), UInt8.toNat_ofNat']
    omega

/-- Octets `b` are what is written for their number in as many octets. -/
theorem ofNatWidth_toNat (b : Bytes) : ofNatWidth b.length (toNat b) = b := by
  obtain ⟨r, rfl⟩ : ∃ r : Bytes, b = r.reverse := ⟨b.reverse, by simp⟩
  induction r with
  | nil => rfl
  | cons x r ih =>
    have hx := x.toNat_lt
    rw [List.reverse_cons, toNat_append, List.length_append, List.length_singleton, ofNatWidth,
      show (toNat r.reverse * 256 + x.toNat) / 256 = toNat r.reverse by omega, ih]
    congr 2
    apply UInt8.toNat_inj.mp
    rw [UInt8.toNat_ofNat']
    omega

/-! ## Two's complement -/

theorem not_lt_0x80 {x : UInt8} : ~~~x < 0x80 ↔ ¬x < 0x80 := by
  have := x.toNat_lt
  rw [octet_lt_0x80, octet_lt_0x80, UInt8.toNat_not, UInt8.size]
  omega

theorem isMinimal_of_ne {x : UInt8} (h0 : x ≠ 0) (hff : x ≠ 0xFF) (xs : Bytes) :
    isMinimal (x :: xs) = true := by
  cases xs <;> simp [isMinimal, h0, hff]

theorem map_not_map_not (b : Bytes) : (b.map (~~~ ·)).map (~~~ ·) = b := by
  simp [Function.comp_def]

/-- A first octet of `b` is idle if its complement is. -/
theorem isMinimal_map_not (b : Bytes) : isMinimal (b.map (~~~ ·)) = isMinimal b := by
  match b with
  | [] => rfl
  | [_] => rfl
  | x :: y :: _ =>
    have h0 : (~~~x == 0) = (x == 0xFF) := by
      rw [Bool.eq_iff_iff, beq_iff_eq, beq_iff_eq]
      exact UInt8.not_inj (b := 0xFF)
    have hff : (~~~x == 0xFF) = (x == 0) := by
      rw [Bool.eq_iff_iff, beq_iff_eq, beq_iff_eq]
      exact UInt8.not_inj (b := 0)
    simp only [List.map_cons, isMinimal, h0, hff, ← UInt8.not_lt, not_lt_0x80, Decidable.not_not]
    exact Bool.and_comm _ _

/-- The octets of a natural number, `ofNonneg n`, are minimal and begin with no sign. -/
theorem ofNonneg_spec (n : Nat) :
    ∃ x xs, ofNonneg n = x :: xs ∧ x < 0x80 ∧ isMinimal (x :: xs) = true ∧
      toNat (x :: xs) = n := by
  unfold ofNonneg
  split
  · rename_i h
    refine ⟨0, [], rfl, by decide, rfl, ?_⟩
    have := toNat_ofNat n
    rw [h] at this
    rw [← this]
    rfl
  · rename_i x xs h
    have hn := toNat_ofNat n
    have hx : x ≠ 0 := by simpa [h] using head?_ofNat n
    rw [h] at hn
    split
    · rename_i hlt
      have hff : x ≠ 0xFF := fun e => absurd hlt (e ▸ by decide)
      exact ⟨x, xs, rfl, hlt, isMinimal_of_ne hx hff xs, hn⟩
    · rename_i hge
      refine ⟨0, x :: xs, rfl, by decide, ?_, by rw [toNat_zero_cons, hn]⟩
      simp [isMinimal, hge]

theorem ofNonneg_toNat {x : UInt8} {xs : Bytes} (hx : x < 0x80)
    (hmin : isMinimal (x :: xs) = true) : ofNonneg (toNat (x :: xs)) = x :: xs := by
  by_cases h0 : x = 0
  · subst h0
    cases xs with
    | nil => simp [ofNonneg, toNat, ofNat_zero]
    | cons y ys =>
      have hy : ¬y < 0x80 := by simpa [isMinimal] using hmin
      have hne : y ≠ 0 := fun e => hy (e ▸ by decide)
      rw [toNat_zero_cons, ofNonneg, ofNat_toNat (by simpa using hne)]
      simp [hy]
  · rw [ofNonneg, ofNat_toNat (by simpa using h0)]
    simp [hx]

theorem toInt_ofInt (n : Int) : toInt (ofInt n) = n := by
  cases n with
  | ofNat n =>
    obtain ⟨x, xs, h, hx, -, hn⟩ := ofNonneg_spec n
    rw [ofInt, h, toInt, if_pos hx, hn]
  | negSucc n =>
    obtain ⟨x, xs, h, hx, -, hn⟩ := ofNonneg_spec n
    rw [ofInt, h, List.map_cons, toInt, if_neg (by simpa [not_lt_0x80] using hx), ← List.map_cons,
      map_not_map_not, hn]

theorem isMinimal_ofInt (n : Int) : isMinimal (ofInt n) = true := by
  cases n with
  | ofNat n =>
    obtain ⟨x, xs, h, -, hmin, -⟩ := ofNonneg_spec n
    rw [ofInt, h, hmin]
  | negSucc n =>
    obtain ⟨x, xs, h, -, hmin, -⟩ := ofNonneg_spec n
    rw [ofInt, h, isMinimal_map_not, hmin]

theorem ofInt_inj {m n : Int} (h : ofInt m = ofInt n) : m = n := by
  rw [← toInt_ofInt m, h, toInt_ofInt]

theorem ofInt_toInt {b : Bytes} (h : isMinimal b = true) : ofInt (toInt b) = b := by
  cases b with
  | nil => cases h
  | cons x xs =>
    rw [toInt]
    split
    · rename_i hx
      exact ofNonneg_toNat hx h
    · rename_i hx
      have := @ofNonneg_toNat (~~~x) (xs.map (~~~ ·)) (not_lt_0x80.mpr hx)
        (by rw [← List.map_cons (f := (~~~ ·)), isMinimal_map_not, h])
      rw [ofInt, List.map_cons, this, ← List.map_cons (f := (~~~ ·)), map_not_map_not]

/-- The number of `b` and that of its complement make up all ones. -/
theorem toNat_map_not (b : Bytes) : toNat b + toNat (b.map (~~~ ·)) + 1 = 1 <<< (8 * b.length) := by
  obtain ⟨r, rfl⟩ : ∃ r : Bytes, b = r.reverse := ⟨b.reverse, by simp⟩
  induction r with
  | nil => rfl
  | cons x r ih =>
    have hx := x.toNat_lt
    rw [List.reverse_cons, List.map_append, List.map_singleton, toNat_append, toNat_append,
      List.length_append, List.length_singleton, Nat.mul_add, Nat.shiftLeft_add,
      Nat.shiftLeft_eq _ 8, ← ih, UInt8.toNat_not, UInt8.size]
    omega

/-- `toInt b` is the number of the octets as they are, less a power of two where the first one
carries the sign. -/
theorem toInt_eq (b : Bytes) :
    toInt b = toNat b - (if b.headD 0 < 0x80 then 0 else 1 <<< (8 * b.length) : Nat) := by
  cases b with
  | nil => rfl
  | cons x xs =>
    rw [toInt, List.headD_cons]
    split
    · exact (Int.sub_zero _).symm
    · rw [← toNat_map_not, Int.negSucc_eq]
      omega

/-- An idle octet `x` can be left out. -/
theorem toInt_of_idle {x y : UInt8} {ys : Bytes} (h : isMinimal (x :: y :: ys) = false) :
    toInt (x :: y :: ys) = toInt (y :: ys) := by
  simp only [isMinimal, Bool.and_eq_false_iff, Bool.not_eq_false', Bool.and_eq_true, beq_iff_eq,
    decide_eq_true_iff, ← UInt8.not_lt] at h
  obtain ⟨rfl, hy⟩ | ⟨rfl, hy⟩ := h
  · rw [toInt, if_pos (by decide), toNat_zero_cons, toInt, if_pos hy]
  · rw [toInt, if_neg (by decide), List.map_cons, show (~~~0xFF : UInt8) = 0 from rfl,
      toNat_zero_cons, toInt, if_neg hy]

/-- `b` has no fewer octets than those that are written for its number. -/
theorem length_ofInt_toInt_le {b : Bytes} (h : b ≠ []) : (ofInt (toInt b)).length ≤ b.length := by
  induction b with
  | nil => exact absurd rfl h
  | cons x xs ih =>
    cases hmin : isMinimal (x :: xs) with
    | true => exact Nat.le_of_eq (congrArg List.length (ofInt_toInt hmin))
    | false =>
      cases xs with
      | nil => cases hmin
      | cons y ys =>
        rw [toInt_of_idle hmin]
        exact Nat.le_succ_of_le (ih (List.cons_ne_nil y ys))

theorem ofInt_ne_nil (n : Int) : ofInt n ≠ [] := by
  intro h
  have hmin := isMinimal_ofInt n
  rw [h] at hmin
  cases hmin

/-- The octets that are written, `ofInt n`, are the shortest two's complement of `n`, and there is
only one. -/
theorem eq_ofInt_iff {b : Bytes} {n : Int} :
    b = ofInt n ↔
      b ≠ [] ∧ toInt b = n ∧ ∀ c : Bytes, c ≠ [] → toInt c = n → b.length ≤ c.length := by
  constructor
  · rintro rfl
    refine ⟨ofInt_ne_nil n, toInt_ofInt n, ?_⟩
    rintro c hc rfl
    exact length_ofInt_toInt_le hc
  · rintro ⟨hne, rfl, hshort⟩
    cases hmin : isMinimal b with
    | true => exact (ofInt_toInt hmin).symm
    | false =>
      -- Without its idle octet it would be shorter.
      match b, hne with
      | [_], _ => cases hmin
      | x :: y :: ys, _ =>
        exact absurd (hshort (y :: ys) (List.cons_ne_nil y ys) (toInt_of_idle hmin).symm)
          (Nat.not_succ_le_self _)

/-- The octets of a two's complement, `ofInt n`, taken for a number without sign. -/
theorem toNat_ofInt (n : Int) : (toNat (ofInt n) : Int) =
    if 0 ≤ n then n else n + (1 <<< (8 * (ofInt n).length) : Nat) := by
  cases n with
  | ofNat n =>
    obtain ⟨x, xs, h, -, -, hn⟩ := ofNonneg_spec n
    rw [ofInt, h, hn, if_pos (show 0 ≤ Int.ofNat n from Int.natCast_nonneg n)]
    rfl
  | negSucc n =>
    obtain ⟨x, xs, h, -, -, hn⟩ := ofNonneg_spec n
    have hsum := toNat_map_not (x :: xs)
    rw [ofInt, h, if_neg (by omega), List.length_map]
    omega

theorem head_le_toNat (x : UInt8) (xs : Bytes) : x.toNat ≤ toNat (x :: xs) := by
  have hfold (n : Nat) : n ≤ xs.foldl (fun n x => n * 256 + x.toNat) n := by
    induction xs generalizing n with
    | nil => exact Nat.le_refl n
    | cons y ys ih => exact Nat.le_trans (by omega) (ih (n * 256 + y.toNat))
  rw [toNat, List.foldl_cons]
  exact Nat.le_trans (by omega) (hfold _)

/-- Only zero is written as zeros by `ofInt`. -/
theorem toNat_ofInt_pos {n : Int} (h : n ≠ 0) : 0 < toNat (ofInt n) := by
  cases n with
  | ofNat n =>
    obtain ⟨x, xs, hn, -, -, heq⟩ := ofNonneg_spec n
    rw [ofInt, hn, heq]
    exact Nat.pos_of_ne_zero fun h0 => h (congrArg Int.ofNat h0)
  | negSucc n =>
    obtain ⟨x, xs, hn, hx, -, -⟩ := ofNonneg_spec n
    have hle := head_le_toNat (~~~x) (xs.map (~~~ ·))
    rw [octet_lt_0x80] at hx
    rw [UInt8.toNat_not, UInt8.size] at hle
    rw [ofInt, hn, List.map_cons]
    omega

theorem toNat_ofInt_of_nonneg {n : Int} (h : 0 ≤ n) : (toNat (ofInt n) : Int) = n := by
  rw [toNat_ofInt, if_pos h]

theorem length_ofNonneg_le (n : Nat) : (ofNonneg n).length ≤ (ofNat n).length + 1 := by
  unfold ofNonneg
  split
  · simp
  · split <;> simp_all

/-- Numbers `n` of 32 bits take at most five octets. -/
theorem length_ofInt_word (n : UInt32) : (ofInt n.toNat).length < UInt32.size := by
  have hlen : (ofNat n.toNat).length ≤ 4 := length_ofNat_le_iff.mpr n.toNat_lt
  have := length_ofNonneg_le n.toNat
  rw [UInt32.size]
  exact Nat.lt_of_le_of_lt this (by omega)

end Pkix.BigEndian
