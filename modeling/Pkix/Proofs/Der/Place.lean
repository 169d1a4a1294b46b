import Pkix.Der.Place
import Pkix.Proofs.Der.Tag
import Mathlib.Data.List.Induction

/-!
# Reading by index does not stop

Inside a buffer that memory can hold, every index that is counted from the octets of the buffer is
one of its indices. Reading at a place then does what reading at a cursor does.

* `Place.Inside`: the position is an index of the buffer or the one after its last octet.
* `Place.lengthFrom_eq`, `Place.element_eq`: the next element, by indices.
* `Oid.ofContentAt_eq`: the words of an identifier, by indices.
-/

namespace Pkix

open Der Checked

namespace Checked

/-- The octets of `b` from `start` up to the end. -/
theorem slice?_length {b : Bytes} {start : Nat} (h : start ≤ b.length) :
    slice? b start b.length = some (b.drop start) := by
  rw [slice?_eq_some]
  refine ⟨h, Nat.le_refl _, ?_⟩
  rw [List.take_of_length_le]
  simp

/-- The octets `part` that stand at the index `start`. -/
theorem slice?_of_drop {b part rest : Bytes} {start stop : Nat} (h : b.drop start = part ++ rest)
    (hstop : stop = start + part.length) (hstart : start ≤ b.length) :
    slice? b start stop = some part := by
  have hlen := congrArg List.length h
  rw [List.length_drop, List.length_append] at hlen
  rw [slice?_eq_some, h, hstop]
  refine ⟨by omega, by omega, ?_⟩
  rw [Nat.add_sub_cancel_left, List.take_left]

theorem run_require_some {α : Type} {o : Option α} {a : α} (h : o = some a) :
    (require o).run = some (.ok a) := run_require_eq_ok.mpr h

theorem run_sum {a b : Nat} (h : a + b < UInt64.size) :
    (require (sum? a b)).run = some (.ok (a + b)) :=
  run_require_some (sum?_eq_some.mpr ⟨h, rfl⟩)

theorem run_difference {a b : Nat} (h : b ≤ a) :
    (require (difference? a b)).run = some (.ok (a - b)) :=
  run_require_some (difference?_eq_some.mpr ⟨h, rfl⟩)

end Checked

/-! ## Octets of a number, shifted into a word -/

namespace BigEndian

theorem toNat_shifted_or {w : UInt64} (x : UInt8) (h : w.toNat * 256 < UInt64.size) :
    (w <<< 8 ||| x.toUInt64).toNat = w.toNat * 256 + x.toNat := by
  have hshift : (w <<< 8).toNat = w.toNat <<< 8 := by
    rw [UInt64.toNat_shiftLeft]
    show w.toNat <<< 8 % UInt64.size = _
    rw [Nat.shiftLeft_eq] at *
    exact Nat.mod_eq_of_lt h
  have hlt : x.toNat < Nat.pow 2 8 := x.toNat_lt
  rw [UInt64.toNat_or, UInt8.toNat_toUInt64, hshift, ← Nat.shiftLeft_add_eq_or_of_lt hlt,
    Nat.shiftLeft_eq]

theorem toNat_lt (b : Bytes) : toNat b < 1 <<< (8 * b.length) := by
  have := toNat_map_not b
  omega

/-- A word of 64 bits takes the eight octets of `b`. -/
theorem toNat_foldl_shift {b : Bytes} (h : b.length ≤ 8) :
    (b.foldl (fun (w : UInt64) x => w <<< 8 ||| x.toUInt64) 0).toNat = toNat b := by
  induction b using List.reverseRecOn with
  | nil => rfl
  | append_singleton b x ih =>
    rw [List.length_append, List.length_singleton] at h
    have hb := ih (by omega)
    have hlt := toNat_lt b
    have hmono : 1 <<< (8 * b.length) ≤ 1 <<< (8 * 7) := by
      rw [Nat.shiftLeft_eq, Nat.shiftLeft_eq]
      exact Nat.mul_le_mul_left 1 (Nat.pow_le_pow_right (by decide) (by omega))
    have hseven : 1 <<< (8 * 7) = 72057594037927936 := rfl
    have hsize : UInt64.size = 18446744073709551616 := rfl
    rw [List.foldl_append, List.foldl_cons, List.foldl_nil, toNat_shifted_or x (by omega), hb,
      toNat_append]

end BigEndian

/-! ## Object identifiers -/

namespace Oid

theorem wordsFrom_eq (content : Bytes) (index : Nat) (done : List UInt64) :
    (wordsFrom content index done).run =
      if content.length ≤ index then some (.ok done.reverse)
      else (do
        let (w, next) ← wordAt content index
        wordsFrom content next (w :: done) : Checked (List UInt64)).run := by
  rw [wordsFrom]
  split
  · rfl
  · rw [run_bind]
    split <;> simp [*]

section

variable {content b after : Bytes} {index : Nat} {w : UInt64} {fault : Base128.Fault}

theorem wordAt_of_fault (hdrop : content.drop index = b) (hindex : index ≤ content.length)
    (hword : Base128.decodeWord? b = some (.error fault)) :
    (wordAt content index).run = some (.error (.malformed (faultCause fault))) := by
  rw [← hdrop] at hword
  rw [wordAt, run_bind_of_ok (run_require_some (slice?_length hindex)),
    run_bind_of_ok (run_require_some hword)]
  rfl

theorem wordAt_of_word (hdrop : content.drop index = b) (hindex : index ≤ content.length)
    (hlen : content.length < 1 <<< 63) (hword : Base128.decodeWord? b = some (.ok (w, after))) :
    (wordAt content index).run = some (.ok (w, index + (b.length - after.length))) := by
  have hlt := Base128.length_lt_of_decodeWord? hword
  have hsize : (1 <<< 63 : Nat) + 1 <<< 63 = UInt64.size := rfl
  have hcount := congrArg List.length hdrop
  rw [List.length_drop] at hcount
  have hslice := slice?_length hindex
  rw [hdrop] at hslice
  rw [wordAt, run_bind_of_ok (run_require_some hslice), run_bind_of_ok (run_require_some hword)]
  show (do
    let used ← require (difference? b.length after.length)
    return (w, ← require (sum? index used)) : Checked (UInt64 × Nat)).run = _
  rw [run_bind_of_ok (run_difference (by omega)), run_bind_of_ok (run_sum (by omega))]
  rfl

end

/-- The words of `content` from `index` on are those of the octets from there on, `b`. -/
theorem wordsFrom_eq_words? {content b : Bytes} {index : Nat} {done : List UInt64}
    (hdrop : content.drop index = b) (hindex : index ≤ content.length)
    (hlen : content.length < 1 <<< 63) : (wordsFrom content index done).run = words? b done := by
  have hcount := congrArg List.length hdrop
  rw [List.length_drop] at hcount
  induction b, done using words?.induct generalizing index with
  | case1 done =>
    rw [wordsFrom_eq, words?, if_pos rfl, if_pos]
    rw [List.length_nil] at hcount
    omega
  | case2 b done hb hword =>
    have hnumber := Base128.decodeWord?_eq hb
    rw [hword] at hnumber
    cases hnumber
  | case3 b done hb fault hword =>
    have hpos := List.length_pos_iff.mpr hb
    rw [words?_of_fault hb hword, wordsFrom_eq, if_neg (by omega), run_bind,
      wordAt_of_fault hdrop hindex hword]
    rfl
  | case4 b done hb w rest hword hlt ih =>
    have hpos := List.length_pos_iff.mpr hb
    rw [words?_of_word hb hword, wordsFrom_eq, if_neg (by omega),
      run_bind_of_ok (wordAt_of_word hdrop hindex hlen hword)]
    have hdecode := Base128.decodeWord?_eq hb
    rw [hword] at hdecode
    have hsplit : b = Base128.encode w.toNat ++ rest :=
      ((Base128.decode_eq_ok (by decide)).mp (Option.some.inj hdecode).symm).1
    have hused : b.length - rest.length = (Base128.encode w.toNat).length := by
      rw [hsplit, List.length_append]
      omega
    have hnext : content.drop (index + (b.length - rest.length)) = rest := by
      rw [hused, ← List.drop_drop, hdrop, hsplit, List.drop_left]
    refine ih hnext (by omega) ?_
    omega

/-- The words that `ofContentAt` reads by index are the ones that fill `content`. -/
theorem run_ofContentAt {content : Bytes} (hlen : content.length < 1 <<< 63) :
    (ofContentAt content).run =
      (ofContentWords? content).map fun r => r.bind fun ws => ofArcs (ws.map UInt64.toNat) := by
  rw [ofContentAt, ofContentWords?]
  by_cases hempty : content = []
  · rw [if_pos hempty, if_pos hempty]
    rfl
  · have hwords : (wordsFrom content 0 []).run = words? content [] :=
      wordsFrom_eq_words? List.drop_zero (Nat.zero_le _) hlen
    rw [if_neg hempty, if_neg hempty, run_bind, hwords]
    rcases words? content [] with _ | _ | _ | ⟨w, rest⟩
    · rfl
    · rfl
    · rfl
    · have hfirst : (require (w :: rest)[0]?).run = some (.ok w) := rfl
      show (require (w :: rest)[0]? >>= fun first => _).run = Option.map _ ((splitWord? w).map _)
      rw [run_bind_of_ok hfirst, run_bind]
      cases splitWord? w <;> rfl

/-- **An identifier by index.** Its content octets `content` are read by `ofContentAt` without
stopping. -/
theorem ofContentAt_eq {content : Bytes} (hlen : content.length < 1 <<< 63) :
    (ofContentAt content).run = some ((ofContent content).map id) := by
  have hwords := ofContentWords?_eq content
  rw [run_ofContentAt hlen]
  cases hread : ofContentWords? content with
  | none => simp [hread] at hwords
  | some r =>
    rw [hread, Option.map_some, Option.some.injEq] at hwords
    have harcs (o : Oid) : ofArcs o.arcs = .ok o := dif_pos o.valid
    have hr : (r.bind fun ws => ofArcs (ws.map UInt64.toNat)) =
        (r.map (List.map UInt64.toNat)).bind ofArcs := by cases r <;> rfl
    rw [Option.map_some, hr, hwords]
    cases ofContent content with
    | error e => rfl
    | ok o => exact congrArg some (harcs o)

end Oid

namespace Der.Place

/-- The position of `p` is in the buffer or at its end, and memory can hold the buffer. -/
structure Inside (p : Place) : Prop where
  position_le : p.position ≤ p.buffer.length
  length_lt : p.buffer.length < 1 <<< 63

/-! ## Elements -/

/-- Up to four octets of a number by index, `count` of them, are those octets of `rest`. -/
theorem digitsFrom_eq {b rest : Bytes} {index count : Nat} (hdrop : b.drop index = rest)
    (hindex : index ≤ b.length) (hlen : b.length < 1 <<< 63) (hcount : 1 ≤ count ∧ count ≤ 4) :
    (digitsFrom b index count).run =
      some (Except.map (fun (n, after) => (n, b.length - after.length))
        (if (rest.take count).length < count then .error (.malformed .lengthTruncated)
        else if (rest.take count).head? = some 0 ∨ BigEndian.toNat (rest.take count) < 128 then
          .error (.malformed .lengthPadded)
        else .ok (BigEndian.toNat (rest.take count), rest.drop count))) := by
  have hsize : (1 <<< 63 : Nat) + 1 <<< 63 = UInt64.size := rfl
  have hrest := congrArg List.length hdrop
  rw [List.length_drop] at hrest
  rw [digitsFrom, run_bind_of_ok (run_sum (by omega))]
  by_cases htruncated : rest.length < count
  · have hnone : slice? b index (index + count) = none := by
      rw [slice?, if_neg (by omega)]
    have htake : (rest.take count).length < count := by
      rw [List.length_take]
      omega
    rw [hnone, if_pos htake]
    rfl
  · have htake : (rest.take count).length = count := by
      rw [List.length_take]
      omega
    have hsplit : b.drop index = rest.take count ++ rest.drop count := by
      rw [hdrop, List.take_append_drop]
    have hslice : slice? b index (index + count) = some (rest.take count) :=
      slice?_of_drop hsplit (by rw [htake]) hindex
    have hword := BigEndian.toNat_foldl_shift (b := rest.take count) (by omega)
    rw [hslice, if_neg (by omega)]
    cases hdigits : rest.take count with
    | nil =>
      rw [hdigits, List.length_nil] at htake
      omega
    | cons d ds =>
      rw [hdigits] at hword
      simp only [List.getElem?_cons_zero, List.head?_cons, Option.some.injEq]
      rw [run_bind_of_ok (run_require_some rfl)]
      simp only [UInt64.lt_iff_toNat_lt, hword, show (0x80 : UInt64).toNat = 128 from rfl]
      by_cases hpadded : d = 0 ∨ BigEndian.toNat (d :: ds) < 128
      · rw [if_pos hpadded, if_pos hpadded]
        rfl
      · have hafter : b.length - (rest.drop count).length = index + count := by
          rw [List.length_drop]
          omega
        rw [if_neg hpadded, if_neg hpadded, ← hafter]
        rfl

/-- Length octets by index (`lengthFrom`) are length octets (`Length.ofOctets`). -/
theorem lengthFrom_eq {b rest : Bytes} {index : Nat} (hdrop : b.drop index = rest)
    (hindex : index ≤ b.length) (hlen : b.length < 1 <<< 63) :
    (lengthFrom b index).run =
      some ((Length.ofOctets rest).map fun (n, after) => (n, b.length - after.length)) := by
  have hsize : (1 <<< 63 : Nat) + (1 <<< 63) = UInt64.size := rfl
  have hcount := congrArg List.length hdrop
  rw [List.length_drop] at hcount
  cases rest with
  | nil =>
    have hnone : b[index]? = none := by
      rw [← List.head?_drop, hdrop]
      rfl
    rw [lengthFrom, hnone]
    rfl
  | cons x after =>
    have hsome : b[index]? = some x := by
      rw [← List.head?_drop, hdrop]
      rfl
    have hafter : b.drop (index + 1) = after := by
      rw [← List.tail_drop, hdrop]
      rfl
    rw [List.length_cons] at hcount
    simp only [lengthFrom, hsome]
    rw [run_bind_of_ok (run_sum (by omega)), Length.ofOctets]
    by_cases hshort : x < 0x80
    · rw [if_pos hshort, if_pos hshort]
      have hused : b.length - after.length = index + 1 := by omega
      show _ = some (Except.ok (x.toNat, b.length - after.length))
      rw [hused]
      rfl
    · rw [if_neg hshort, if_neg hshort]
      by_cases h80 : x = 0x80
      · rw [if_pos h80, if_pos h80]
        rfl
      · rw [if_neg h80, if_neg h80]
        by_cases h84 : x ≤ 0x84
        · have hlt : ¬0x84 < x := UInt8.not_lt.mpr h84
          have hnumber : 128 < x.toNat ∧ x.toNat ≤ 132 := by
            have h128 := mt octet_lt_0x80.mpr hshort
            have hne := mt octet_eq_0x80.mpr h80
            have hle : x.toNat ≤ 132 := UInt8.le_iff_toNat_le.mp h84
            omega
          rw [if_pos h84, if_neg hlt, Base128.toNat_low,
            show x.toNat % 128 = x.toNat - 128 by omega,
            digitsFrom_eq hafter (by omega) hlen (by omega)]
        · rw [if_neg h84, if_pos (UInt8.not_le.mp h84)]
          rfl

/-- `Tag.read`, which is on words, gives the tag of `Tag.ofOctets` and how many octets it takes
up. -/
theorem run_readTag (b : Bytes) : (liftM (Tag.read b) : Checked (Tag × Nat)).run =
    some ((Tag.ofOctets b).map fun r => (r.1, b.length - r.2.length)) := by
  rw [run_liftM, Tag.read_eq]
  cases Tag.ofOctets b <;> rfl

/-- The content of an element `v` that stands at `p`, and the whole of it. -/
theorem slices_eq {p : Place} {v : Value} {rest : Bytes} (hle : p.position ≤ p.buffer.length)
    (hdrop : p.buffer.drop p.position = v.octets ++ rest) :
    slice? p.buffer (p.position + v.header.length) (p.position + v.size) = some v.content ∧
      slice? p.buffer p.position (p.position + v.size) = some v.octets := by
  have hsize : v.size = v.header.length + v.content.length := rfl
  have hcount := congrArg List.length hdrop
  rw [List.length_drop, List.length_append, Value.length_octets] at hcount
  have hcontent : p.buffer.drop (p.position + v.header.length) = v.content ++ rest := by
    rw [← List.drop_drop, hdrop, Value.octets, List.append_assoc, List.drop_left]
  have hwhole : p.position + v.size = p.position + v.octets.length := by rw [Value.length_octets]
  have hpos := v.size_pos
  exact ⟨slice?_of_drop hcontent (by omega) (by omega), slice?_of_drop hdrop hwhole hle⟩

/-- An element by its start and its length `n` is what stands at `p`, where the buffer holds all of
it. -/
theorem cut_eq {p : Place} {tag : Tag} {n : Nat} {rest : Bytes} (h : p.Inside)
    (hdrop : p.buffer.drop p.position = tag.octets ++ (Length.octets n ++ rest)) :
    (p.cut tag (p.buffer.length - rest.length) n).run =
      some (Except.map
        (fun v : Value =>
          (⟨v.tag, v.content, v.octets⟩, { p with position := p.position + v.size }))
        (if (rest.take n).length < n then .error (.malformed (.overrun n rest.length))
        else .ok ⟨tag, rest.take n⟩)) := by
  have hle := h.position_le
  have hlt := h.length_lt
  have hword : (1 <<< 63 : Nat) + 1 <<< 63 = UInt64.size := rfl
  have hcount := congrArg List.length hdrop
  rw [List.length_drop, List.length_append, List.length_append] at hcount
  have hremaining : p.buffer.length - (p.buffer.length - rest.length) = rest.length := by omega
  rw [cut, run_bind_of_ok (run_difference (by omega)), hremaining]
  by_cases hover : rest.length < n
  · rw [if_pos hover, if_pos (by rw [List.length_take]; omega)]
    rfl
  · have hcontent : (rest.take n).length = n := by
      rw [List.length_take]
      omega
    let v : Value := ⟨tag, rest.take n⟩
    have hheader : v.header = tag.octets ++ Length.octets n := by rw [Value.header, hcontent]
    have hstands : p.buffer.drop p.position = v.octets ++ rest.drop n := by
      rw [Value.octets, hheader, hdrop]
      simp only [v, List.append_assoc, List.take_append_drop]
    obtain ⟨hcut, hwhole⟩ := slices_eq hle hstands
    have hlength : v.header.length = tag.octets.length + (Length.octets n).length := by
      rw [hheader, List.length_append]
    have hsize : v.size = v.header.length + n := by rw [Value.size, hcontent]
    have hstart : p.buffer.length - rest.length = p.position + v.header.length := by omega
    have hstop : p.position + v.header.length + n = p.position + v.size := by omega
    rw [if_neg hover, if_neg (by omega), hstart, run_bind_of_ok (run_sum (by omega)), hstop,
      run_bind_of_ok (run_require_some hcut), run_bind_of_ok (run_require_some hwhole)]
    rfl

/-- **The next element by index.** `p.element` is the one that stands at `p`, and it is cut out of
the buffer whole. -/
theorem element_eq {p : Place} (h : p.Inside) :
    p.element.run = some ((Value.first (p.buffer.drop p.position)).map fun v =>
      (⟨v.tag, v.content, v.octets⟩, { p with position := p.position + v.size })) := by
  have hle := h.position_le
  have hlt := h.length_lt
  have hword : (1 <<< 63 : Nat) + 1 <<< 63 = UInt64.size := rfl
  have hrest : p.rest.run = some (.ok (p.buffer.drop p.position)) :=
    run_require_some (slice?_length hle)
  rw [element, run_bind_of_ok hrest, Value.first]
  refine run_bind_map (run_readTag _) fun r htag => ?_
  obtain ⟨tag, afterTag⟩ := r
  have htagged := Tag.ofOctets_eq_ok.mp htag
  have hcount := congrArg List.length htagged
  rw [List.length_drop, List.length_append] at hcount
  have hused : (p.buffer.drop p.position).length - afterTag.length = tag.octets.length := by
    rw [List.length_drop]
    omega
  have hindex : p.buffer.drop (p.position + tag.octets.length) = afterTag := by
    rw [← List.drop_drop, htagged, List.drop_left]
  simp only [hused]
  rw [run_bind_of_ok (run_sum (by omega))]
  refine run_bind_map (lengthFrom_eq hindex (by omega) hlt) fun r hlength => ?_
  obtain ⟨n, afterLength⟩ := r
  obtain ⟨hspelt, -⟩ := Length.ofOctets_eq_ok.mp hlength
  exact cut_eq h (by rw [htagged, hspelt])

end Der.Place

end Pkix
