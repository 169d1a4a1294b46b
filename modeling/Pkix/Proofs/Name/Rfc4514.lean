import Pkix.Name.Fields
import Pkix.Proofs.Delimited
import Pkix.Proofs.Utf8
import Mathlib.Data.List.TakeWhile

/-!
# Where the string form of a name is cut

A separator counts unless a backslash before it takes its meaning away. The splitter looks at two
octets to tell, so after an escaped backslash it takes the backslash of an escaped separator for
one that is escaped itself, and cuts between the two.

* `Rfc4514.splitFrom_escaped`, `Rfc4514.exists_headless`: escaped octets come through the splitter
  in one piece, unless a backslash stands right before a separator; then they are cut where no key
  begins.
* `Rfc4514.assertion?_headless`: such a piece is not an assertion.
* `Rfc4514.unescapeFrom_escaped`: backslashes are taken away where they were put.
* `Rfc4514.passes_text`, `Rfc4514.breaks_text`: the same for a key and a value, and
  `Rfc4514.split_intercalate`, `Rfc4514.exists_headless_split` for many of them.
-/

namespace Pkix.Rfc4514

/-! ## Escaped octets -/

/-- The octet `x` follows a backslash wherever it stands in a value. -/
def marked (x : UInt8) : Bool := [0x22, 0x2B, 0x2C, 0x3B, 0x3C, 0x3D, 0x3E, 0x5C].contains x

/-- The octets `b` with backslashes before the `marked` ones. -/
def escaped (b : Bytes) : Bytes := b.flatMap fun x => if marked x then [0x5C, x] else [x]

variable {sep c x y : UInt8} {b rest piece : Bytes}

theorem escaped_cons_of_marked (h : marked c = true) :
    escaped (c :: b) = 0x5C :: c :: escaped b := by
  rw [escaped, List.flatMap_cons, if_pos h]
  rfl

theorem escaped_cons_of_not_marked (h : marked c = false) : escaped (c :: b) = c :: escaped b := by
  rw [escaped, List.flatMap_cons, h]
  rfl

/-- A first octet `c` that is no backslash was there before. -/
theorem head?_of_escaped (h : escaped b = c :: rest) (hc : c ≠ 0x5C) : b.head? = some c := by
  cases b with
  | nil => cases h
  | cons d b =>
    cases hd : marked d with
    | true =>
      rw [escaped_cons_of_marked hd] at h
      exact absurd (List.cons_eq_cons.mp h).1.symm hc
    | false =>
      rw [escaped_cons_of_not_marked hd] at h
      exact congrArg some (List.cons_eq_cons.mp h).1

theorem ne_of_not_marked (h : marked c = false) (hx : marked x = true) : c ≠ x := by
  rintro rfl
  rw [h] at hx
  cases hx

/-- The octets at which names are cut: `sep` is a comma or a plus sign. -/
def Separator (sep : UInt8) : Prop := sep = 0x2C ∨ sep = 0x2B

theorem Separator.marked (h : Separator sep) : marked sep = true := by
  obtain rfl | rfl := h <;> decide

theorem Separator.ne_backslash (h : Separator sep) : sep ≠ 0x5C := by
  obtain rfl | rfl := h <;> decide

/-! ## Cutting -/

/-- A separator counts after `x` and `y`: the octet `y` before it is no backslash, or one that
follows a backslash. -/
def Settled (x y : UInt8) : Prop := y ≠ 0x5C ∨ x = 0x5C

theorem splitFrom_cut (h : Settled x y) :
    splitFrom sep piece x y (sep :: rest) = piece.reverse :: splitFrom sep [] y sep rest := by
  rw [splitFrom, if_pos ⟨rfl, h⟩]

theorem splitFrom_keep (h : c = sep → ¬Settled x y) :
    splitFrom sep piece x y (c :: rest) = splitFrom sep (c :: piece) y c rest :=
  if_neg fun hc => h hc.1 hc.2

/-- Whether `splitFrom` cuts at `x` or not, it goes on with what follows. -/
theorem exists_mem_splitFrom_cons {P : Bytes → Prop}
    (h : ∀ piece, ∃ p ∈ splitFrom sep piece y c rest, P p) :
    ∃ p ∈ splitFrom sep piece x y (c :: rest), P p := by
  rw [splitFrom]
  split
  · obtain ⟨p, hp, hP⟩ := h []
    exact ⟨p, List.mem_cons_of_mem _ hp, hP⟩
  · exact h _

/-- The splitter comes to what follows `w`, which is `rest`. -/
theorem exists_mem_splitFrom_append {P : Bytes → Prop} {w : Bytes}
    (h : ∀ piece x y, ∃ p ∈ splitFrom sep piece x y rest, P p) (piece : Bytes) (x y : UInt8) :
    ∃ p ∈ splitFrom sep piece x y (w ++ rest), P p := by
  induction w generalizing piece x y with
  | nil => exact h piece x y
  | cons c w ih => exact exists_mem_splitFrom_cons fun piece => ih piece y c

/-- The first piece that `splitFrom` gives is a beginning of the octets `b`. -/
theorem first_splitFrom (sep : UInt8) (piece : Bytes) (x y : UInt8) (b : Bytes) :
    ∃ p ps, splitFrom sep piece x y b = (piece.reverse ++ p) :: ps ∧ p <+: b := by
  induction b generalizing piece x y with
  | nil => exact ⟨[], [], by rw [splitFrom, List.append_nil], List.nil_prefix⟩
  | cons c b ih =>
    rw [splitFrom]
    split
    · exact ⟨[], _, by rw [List.append_nil], List.nil_prefix⟩
    · obtain ⟨p, ps, hsplit, hp⟩ := ih (c :: piece) y c
      refine ⟨c :: p, ps, ?_, List.cons_prefix_cons.mpr ⟨rfl, hp⟩⟩
      rw [hsplit, List.reverse_cons, List.append_assoc]
      rfl

section Separator

variable (hsep : Separator sep)
include hsep

/-- An octet `c` goes through with the backslash before it, unless it is a separator that follows
two backslashes. -/
theorem splitFrom_marked (h : c = sep → y ≠ 0x5C) :
    splitFrom sep piece x y (0x5C :: c :: rest) =
      splitFrom sep (c :: 0x5C :: piece) 0x5C c rest := by
  rw [splitFrom_keep fun heq => absurd heq.symm hsep.ne_backslash, splitFrom_keep]
  rintro hc (hne | hy)
  · exact hne rfl
  · exact h hc hy

/-- Escaped octets, `escaped b`, come through in one piece unless a backslash stands right before a
separator. -/
theorem splitFrom_escaped (hxy : Settled x y) (h : ¬[0x5C, sep] <:+: y :: b) (piece : Bytes) :
    ∃ x' y', Settled x' y' ∧ ∀ rest, splitFrom sep piece x y (escaped b ++ rest) =
      splitFrom sep ((escaped b).reverse ++ piece) x' y' rest := by
  induction b generalizing piece x y with
  | nil => exact ⟨x, y, hxy, fun rest => rfl⟩
  | cons c b ih =>
    rw [pair_infix_cons_cons, not_or] at h
    obtain ⟨hpair, hb⟩ := h
    cases hc : marked c with
    | true =>
      obtain ⟨x', y', hsettled, hrest⟩ := ih (.inr rfl) hb (c :: 0x5C :: piece)
      refine ⟨x', y', hsettled, fun rest => ?_⟩
      rw [escaped_cons_of_marked hc, List.cons_append, List.cons_append,
        splitFrom_marked hsep fun hcsep hy => hpair ⟨hy.symm, hcsep.symm⟩, hrest]
      simp
    | false =>
      have hne : c ≠ 0x5C := ne_of_not_marked hc (by decide)
      have hnsep : c ≠ sep := ne_of_not_marked hc hsep.marked
      obtain ⟨x', y', hsettled, hrest⟩ := ih (.inl hne) hb (c :: piece)
      refine ⟨x', y', hsettled, fun rest => ?_⟩
      rw [escaped_cons_of_not_marked hc, List.cons_append,
        splitFrom_keep fun heq => absurd heq hnsep, hrest]
      simp

/-- The first piece of escaped octets does not reach beyond them, into `rest`. -/
theorem first_splitFrom_escaped (hxy : Settled x y) (hrest : rest = [] ∨ rest.head? = some sep)
    (piece : Bytes) :
    ∃ p ps, splitFrom sep piece x y (escaped b ++ rest) = (piece.reverse ++ p) :: ps ∧
      p <+: escaped b := by
  induction b generalizing piece x y with
  | nil =>
    cases rest with
    | nil => exact ⟨[], [], by simp [escaped, splitFrom], List.nil_prefix⟩
    | cons c rest =>
      obtain rfl : c = sep := by simpa using hrest
      exact ⟨[], _, by rw [List.append_nil]; exact splitFrom_cut hxy, List.nil_prefix⟩
  | cons c b ih =>
    cases hc : marked c with
    | true =>
      rw [escaped_cons_of_marked hc, List.cons_append, List.cons_append,
        splitFrom_keep fun heq => absurd heq.symm hsep.ne_backslash]
      by_cases hcut : c = sep ∧ Settled y 0x5C
      · obtain ⟨rfl, hsettled⟩ := hcut
        refine ⟨[0x5C], splitFrom c [] 0x5C c (escaped b ++ rest), ?_, by simp⟩
        rw [splitFrom_cut hsettled, List.reverse_cons]
      · obtain ⟨p, ps, hsplit, hp⟩ := ih (.inr rfl) (c :: 0x5C :: piece)
        refine ⟨0x5C :: c :: p, ps, ?_, by simpa using hp⟩
        rw [splitFrom_keep fun heq hsettled => hcut ⟨heq, hsettled⟩, hsplit]
        simp
    | false =>
      have hne : c ≠ 0x5C := ne_of_not_marked hc (by decide)
      have hnsep : c ≠ sep := ne_of_not_marked hc hsep.marked
      obtain ⟨p, ps, hsplit, hp⟩ := ih (.inl hne) (c :: piece)
      refine ⟨c :: p, ps, ?_, ?_⟩
      · rw [escaped_cons_of_not_marked hc, List.cons_append,
          splitFrom_keep fun heq => absurd heq hnsep, hsplit]
        simp
      · rw [escaped_cons_of_not_marked hc]
        exact List.cons_prefix_cons.mpr ⟨rfl, hp⟩

end Separator

/-! ## Pieces without a key -/

/-- Every equals sign in `w` follows a backslash. -/
def Headless (w : Bytes) : Prop := ∀ l r, w = l ++ 0x3D :: r → l.getLast? = some 0x5C

theorem Headless.of_isPrefix {p w : Bytes} (h : Headless w) (hp : p <+: w) : Headless p := by
  obtain ⟨t, rfl⟩ := hp
  rintro l r rfl
  exact h l (r ++ t) (by simp)

theorem Headless.cons {w : Bytes} (h : Headless w) (hc : c ≠ 0x3D) : Headless (c :: w) := by
  intro l r heq
  cases l with
  | nil => exact absurd (List.cons_eq_cons.mp heq).1 hc
  | cons d l =>
    have hlast := h l r (List.cons_eq_cons.mp heq).2
    rw [List.getLast?_cons, hlast]
    rfl

theorem Headless.masked {w : Bytes} (h : Headless w) : Headless (0x5C :: c :: w) := by
  intro l r heq
  cases l with
  | nil => exact absurd (List.cons_eq_cons.mp heq).1 (by decide)
  | cons d l =>
    obtain ⟨rfl, htail⟩ := List.cons_eq_cons.mp heq
    cases l with
    | nil => rfl
    | cons e l =>
      have hlast := h l r (List.cons_eq_cons.mp htail).2
      rw [List.getLast?_cons, List.getLast?_cons, hlast]
      rfl

theorem headless_escaped (b : Bytes) : Headless (escaped b) := by
  induction b with
  | nil =>
    intro l r h
    cases l <;> cases h
  | cons c b ih =>
    cases hc : marked c with
    | true =>
      rw [escaped_cons_of_marked hc]
      exact ih.masked
    | false =>
      rw [escaped_cons_of_not_marked hc]
      exact ih.cons (ne_of_not_marked hc (by decide))

/-- Where a backslash stands right before a separator `sep`, the splitter cuts between the two, and
the piece after has no key. -/
theorem exists_headless (hsep : Separator sep) (hxy : Settled x y)
    (hrest : rest = [] ∨ rest.head? = some sep) (h : [0x5C, sep] <:+: y :: b) (piece : Bytes) :
    ∃ p ∈ splitFrom sep piece x y (escaped b ++ rest), Headless p := by
  induction b generalizing piece x y with
  | nil => simpa using h.length_le
  | cons c b ih =>
    rw [pair_infix_cons_cons] at h
    obtain ⟨rfl, rfl⟩ | hb := h
    · -- The octet before is an escaped backslash, so the one that is meant to take the meaning of
      -- the separator away is taken for escaped itself.
      have hx : Settled 0x5C 0x5C := .inr rfl
      have hsettled : Settled 0x5C sep := .inl hsep.ne_backslash
      obtain ⟨p, ps, hsplit, hp⟩ := first_splitFrom_escaped (b := b) hsep hsettled hrest []
      refine ⟨p, ?_, (headless_escaped b).of_isPrefix hp⟩
      rw [escaped_cons_of_marked hsep.marked, List.cons_append, List.cons_append,
        splitFrom_keep fun heq => absurd heq.symm hsep.ne_backslash, splitFrom_cut hx, hsplit]
      simp
    · cases hc : marked c with
      | true =>
        rw [escaped_cons_of_marked hc]
        exact exists_mem_splitFrom_cons fun _ => exists_mem_splitFrom_cons fun piece =>
          ih (.inr rfl) hb piece
      | false =>
        rw [escaped_cons_of_not_marked hc]
        exact exists_mem_splitFrom_cons fun piece =>
          ih (.inl (ne_of_not_marked hc (by decide))) hb piece

/-! ## The text of a value -/

/-- The octets `escaped b`, of which a number sign or a space at the start follows a backslash
too. -/
def escapedText (b : Bytes) : Bytes :=
  if b.head? = some 0x23 ∨ b.head? = some 0x20 then 0x5C :: escaped b else escaped b

/-- A first octet `c` that needs a backslash only there has one. -/
theorem escapedText_cases (b : Bytes) :
    escapedText b = escaped b ∧ b.head? ≠ some 0x23 ∨
      ∃ c b', (c = 0x23 ∨ c = 0x20) ∧ b = c :: b' ∧ escapedText b = 0x5C :: c :: escaped b' := by
  rw [escapedText]
  split
  · rename_i h
    obtain ⟨c, hc, b', rfl⟩ : ∃ c, (c = 0x23 ∨ c = 0x20) ∧ ∃ b', b = c :: b' := by
      obtain h | h := h <;> exact ⟨_, by simp, List.head?_eq_some_iff.mp h⟩
    refine .inr ⟨c, b', hc, rfl, ?_⟩
    rw [escaped_cons_of_not_marked]
    obtain rfl | rfl := hc <;> decide
  · rename_i h
    exact .inl ⟨rfl, fun hhead => h (.inl hhead)⟩

/-- After an equals sign `escapedText b` comes through in one piece unless a backslash stands right
before a separator. -/
theorem splitFrom_escapedText (hsep : Separator sep) (h : ¬[0x5C, sep] <:+: b) (piece : Bytes)
    (x : UInt8) :
    ∃ x' y', Settled x' y' ∧ ∀ rest, splitFrom sep piece x 0x3D (escapedText b ++ rest) =
      splitFrom sep ((escapedText b).reverse ++ piece) x' y' rest := by
  obtain ⟨heq, -⟩ | ⟨c, b', hc, rfl, heq⟩ := escapedText_cases b
  · rw [heq]
    refine splitFrom_escaped hsep (.inl (by decide)) ?_ piece
    rwa [pair_infix_cons_of_ne (by decide)]
  · have hmasked : Settled 0x5C c := .inr rfl
    obtain ⟨x', y', hsettled, hrest⟩ := splitFrom_escaped hsep hmasked h (c :: 0x5C :: piece)
    refine ⟨x', y', hsettled, fun rest => ?_⟩
    rw [heq, List.cons_append, List.cons_append, splitFrom_marked hsep fun _ => by decide, hrest]
    simp

theorem exists_headless_text (hsep : Separator sep) (hrest : rest = [] ∨ rest.head? = some sep)
    (h : [0x5C, sep] <:+: b) (piece : Bytes) :
    ∃ p ∈ splitFrom sep piece x 0x3D (escapedText b ++ rest), Headless p := by
  obtain ⟨heq, -⟩ | ⟨c, b', hc, rfl, heq⟩ := escapedText_cases b
  · rw [heq]
    refine exists_headless hsep (.inl (by decide)) hrest ?_ piece
    rwa [pair_infix_cons_of_ne (by decide)]
  · rw [heq]
    exact exists_mem_splitFrom_cons fun _ => exists_mem_splitFrom_cons fun piece =>
      exists_headless hsep (.inr rfl) hrest h piece

/-! ## Taking backslashes away -/

theorem unescapeFrom_masked (hc : specials.contains c = true) (rest done : Bytes) :
    unescapeFrom (0x5C :: c :: rest) done = unescapeFrom rest (c :: done) := by
  rw [unescapeFrom.eq_def]
  simp only [ne_eq, not_true_eq_false, if_false, hc, if_true]

theorem unescapeFrom_plain (hc : c ≠ 0x5C) (rest done : Bytes) :
    unescapeFrom (c :: rest) done = unescapeFrom rest (c :: done) := by
  rw [unescapeFrom.eq_def]
  exact if_pos hc

theorem specials_of_marked (h : marked c = true) : specials.contains c = true := by
  simp only [marked, specials, List.contains_cons, List.contains_nil, Bool.or_eq_true, beq_iff_eq,
    Bool.or_false] at h ⊢
  tauto

/-- Backslashes are taken away by `unescapeFrom` where they were put. -/
theorem unescapeFrom_escaped (b done : Bytes) :
    unescapeFrom (escaped b) done = some (done.reverse ++ b) := by
  induction b generalizing done with
  | nil =>
    rw [List.append_nil]
    rfl
  | cons c b ih =>
    cases hc : marked c with
    | true =>
      rw [escaped_cons_of_marked hc, unescapeFrom_masked (specials_of_marked hc), ih]
      simp
    | false =>
      rw [escaped_cons_of_not_marked hc,
        unescapeFrom_plain (ne_of_not_marked hc (by decide)), ih]
      simp

theorem unescapeFrom_escapedText (b : Bytes) : unescapeFrom (escapedText b) [] = some b := by
  obtain ⟨heq, -⟩ | ⟨c, b', hc, rfl, heq⟩ := escapedText_cases b
  · rw [heq, unescapeFrom_escaped]
    rfl
  · have hspecial : specials.contains c = true := by
      obtain rfl | rfl := hc <;> decide
    rw [heq, unescapeFrom_masked hspecial, unescapeFrom_escaped]
    rfl

/-- What a value of the attribute `type` with the text `b` is. -/
def textValue (type : Oid) (b : Bytes) : Der.Value :=
  .ofOctet (if type = Oid.country then Der.Tag.printableString else Der.Tag.utf8String) b

/-- The text of a value, `escapedText b`, is not taken for the digits of an encoding. -/
theorem value?_escapedText (type : Oid) (b : Bytes) :
    value? type (escapedText b) = some (textValue type b) := by
  have hne : ∀ digits, escapedText b ≠ 0x23 :: digits := by
    intro digits h
    obtain ⟨heq, hhead⟩ | ⟨c, b', -, rfl, heq⟩ := escapedText_cases b
    · exact hhead (head?_of_escaped (heq.symm.trans h) (by decide))
    · exact absurd (List.cons_eq_cons.mp (heq.symm.trans h)).1 (by decide)
  rw [value?, unescapeFrom_escapedText]
  · rfl
  · exact hne

/-! ## Assertions -/

/-- A list `xs` is not read where one of its elements, `x`, is not. -/
theorem mapM_eq_none_of_mem {α β : Type} {f : α → Option β} {xs : List α} {x : α} (h : x ∈ xs)
    (hx : f x = none) : xs.mapM f = none := by
  induction xs with
  | nil => cases h
  | cons w xs ih =>
    rw [List.mapM_cons]
    obtain rfl | h := List.mem_cons.mp h
    · rw [hx]
      rfl
    · rw [ih h]
      cases f w <;> rfl

/-- A part of an identifier with a backslash is no arc: only a plus sign is not looked at as a digit
by `arcOfText?`. -/
theorem arcOfText?_of_mem {part : List Char} (h : '\\' ∈ part) : Oid.arcOfText? part = none := by
  unfold Oid.arcOfText?
  extract_lets digits
  have hdigits : '\\' ∈ digits := by
    unfold digits
    split
    · simpa using h
    · exact h
  refine if_pos ?_
  rw [Bool.or_eq_true, Bool.not_eq_true']
  exact .inr (List.all_eq_false.mpr ⟨_, hdigits, by decide⟩)

/-- No attribute has a backslash in its short name `key` or its identifier. -/
theorem type?_of_mem {key : String} (h : '\\' ∈ key.toList) : type? key = none := by
  have hnames : ∀ p ∈ shortNames, '\\' ∉ p.1.toList := by decide
  have hlookup : shortNames.lookup key = none := by
    refine List.lookup_eq_none_iff.mpr fun p hp => ?_
    rw [bne_iff_ne]
    rintro rfl
    exact hnames p hp h
  have hparts : '\\' ∈ ['.'].intercalate (key.toList.splitOn '.') := by
    rwa [List.intercalate_splitOn]
  obtain hdot | ⟨part, hpart, hmem⟩ := mem_intercalate hparts
  · exact absurd hdot (by decide)
  rw [type?, hlookup, Oid.ofText, mapM_eq_none_of_mem hpart (arcOfText?_of_mem hmem)]
  rfl

variable {key value : Bytes}

theorem ne_equals (h : 0x3D ∉ key) : ∀ x ∈ key, decide (x ≠ 0x3D) = true := by
  intro x hx
  rw [decide_eq_true_eq]
  rintro rfl
  exact h hx

theorem span_equals (h : 0x3D ∉ key) :
    (key ++ 0x3D :: value).span (· ≠ 0x3D) = (key, 0x3D :: value) := by
  rw [List.span_eq_takeWhile_dropWhile, List.takeWhile_append_of_pos (ne_equals h),
    List.dropWhile_append_of_pos (ne_equals h)]
  simp

/-- A piece `p` without a key is not an assertion. -/
theorem assertion?_headless {p : Bytes} (h : Headless p) : assertion? p = none := by
  by_cases hmem : 0x3D ∈ p
  · obtain ⟨key, value, rfl, hkey⟩ := List.eq_append_cons_of_mem hmem
    have hbackslash := List.mem_of_getLast? (h key value rfl)
    rw [assertion?, span_equals hkey]
    cases htext : Bytes.toString? key with
    | none => simp [htext]
    | some text =>
      rw [Bytes.toString?_eq_some.mp htext] at hbackslash
      have htype := type?_of_mem ((Bytes.mem_ofString (a := '\\') (by decide)).mp hbackslash)
      simp [htext, htype]
  · have hspan : p.span (· ≠ 0x3D) = (p, []) := by
      rw [List.span_eq_takeWhile_dropWhile, List.takeWhile_eq_self_iff.mpr (ne_equals hmem),
        List.dropWhile_eq_nil_iff.mpr (ne_equals hmem)]
    rw [assertion?, hspan]

/-- The text of an assertion about `type` is read as the assertion. -/
theorem assertion?_text {key : String} {type : Oid} (hkey : 0x3D ∉ Bytes.ofString key)
    (htype : type? key = some type) (b : Bytes) :
    assertion? (Bytes.ofString key ++ 0x3D :: escapedText b) = some ⟨type, textValue type b⟩ := by
  rw [assertion?, span_equals hkey]
  simp [Bytes.toString?_ofString, htype, value?_escapedText]

/-! ## Keys and values -/

/-- The octets `w` come through the splitter in one piece, and a separator `sep` after them
counts. -/
def Passes (sep : UInt8) (w : Bytes) : Prop :=
  ∀ piece x y, ∃ x' y', Settled x' y' ∧
    ∀ rest, splitFrom sep piece x y (w ++ rest) = splitFrom sep (w.reverse ++ piece) x' y' rest

/-- A piece of the octets `w`, up to the separator `sep` after them, has no key. -/
def Breaks (sep : UInt8) (w : Bytes) : Prop :=
  ∀ rest, rest = [] ∨ rest.head? = some sep → ∀ piece x y,
    ∃ p ∈ splitFrom sep piece x y (w ++ rest), Headless p

theorem splitFrom_key (hsep : Separator sep) (hkey : sep ∉ key) (piece : Bytes) (x y : UInt8) :
    ∃ x', ∀ rest, splitFrom sep piece x y (key ++ 0x3D :: rest) =
      splitFrom sep (0x3D :: (key.reverse ++ piece)) x' 0x3D rest := by
  have hequals : 0x3D ≠ sep := by
    obtain rfl | rfl := hsep <;> decide
  induction key generalizing piece x y with
  | nil => exact ⟨y, fun rest => splitFrom_keep fun heq => absurd heq hequals⟩
  | cons c key ih =>
    rw [List.mem_cons, not_or] at hkey
    obtain ⟨hc, hkey⟩ := hkey
    obtain ⟨x', hx'⟩ := ih hkey (c :: piece) y c
    refine ⟨x', fun rest => ?_⟩
    rw [List.cons_append, splitFrom_keep fun heq => absurd heq.symm hc, hx']
    simp

/-- A `key` and a value `b` come through in one piece unless a backslash stands right before a
separator in `b`. -/
theorem passes_text (hsep : Separator sep) (hkey : sep ∉ key) (h : ¬[0x5C, sep] <:+: b) :
    Passes sep (key ++ 0x3D :: escapedText b) := by
  intro piece x y
  obtain ⟨x₁, hsplit⟩ := splitFrom_key hsep hkey piece x y
  obtain ⟨x', y', hsettled, hrest⟩ :=
    splitFrom_escapedText hsep h (0x3D :: (key.reverse ++ piece)) x₁
  refine ⟨x', y', hsettled, fun rest => ?_⟩
  rw [List.append_assoc, List.cons_append, hsplit, hrest]
  simp

theorem breaks_text (hsep : Separator sep) (hkey : sep ∉ key) (h : [0x5C, sep] <:+: b) :
    Breaks sep (key ++ 0x3D :: escapedText b) := by
  intro rest hrest piece x y
  obtain ⟨x', hsplit⟩ := splitFrom_key hsep hkey piece x y
  rw [List.append_assoc, List.cons_append, hsplit]
  exact exists_headless_text hsep hrest h _

/-! ## Lists of them -/

variable {ws : List Bytes}

/-- What comes through in one piece, each of `ws`, is told apart by `split`. -/
theorem split_intercalate (hws : ws ≠ []) (h : ∀ w ∈ ws, Passes sep w) :
    split sep ([sep].intercalate ws) = ws := by
  suffices hfrom : ∀ x y, splitFrom sep [] x y ([sep].intercalate ws) = ws from hfrom 0 0
  induction ws with
  | nil => exact absurd rfl hws
  | cons w ws ih =>
    intro x y
    obtain ⟨hw, hrest⟩ := List.forall_mem_cons.mp h
    obtain ⟨x', y', hsettled, hsplit⟩ := hw [] x y
    cases ws with
    | nil =>
      have hone := hsplit []
      rw [List.append_nil, List.append_nil, splitFrom, List.reverse_reverse] at hone
      rw [List.intercalate_singleton, hone]
    | cons next ws =>
      rw [List.intercalate_cons_cons, List.append_assoc, hsplit, List.append_nil,
        List.singleton_append, splitFrom_cut hsettled, List.reverse_reverse, ih (by simp) hrest]

/-- One of `ws` that breaks is enough for a piece without a key. -/
theorem exists_headless_split {w : Bytes} (hw : w ∈ ws) (h : Breaks sep w) :
    ∃ p ∈ split sep ([sep].intercalate ws), Headless p := by
  suffices hfrom : ∀ piece x y,
      ∃ p ∈ splitFrom sep piece x y ([sep].intercalate ws), Headless p from hfrom [] 0 0
  induction ws with
  | nil => cases hw
  | cons v ws ih =>
    intro piece x y
    cases ws with
    | nil =>
      obtain rfl := List.mem_singleton.mp hw
      have hone := h [] (.inl rfl) piece x y
      rw [List.append_nil] at hone
      rwa [List.intercalate_singleton]
    | cons next ws =>
      rw [List.intercalate_cons_cons, List.append_assoc, List.singleton_append]
      obtain rfl | hw := List.mem_cons.mp hw
      · exact h _ (.inr rfl) piece x y
      · exact exists_mem_splitFrom_append
          (fun _ _ _ => exists_mem_splitFrom_cons fun piece => ih hw piece _ _) piece x y

end Pkix.Rfc4514
