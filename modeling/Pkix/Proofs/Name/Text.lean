import Pkix.Name.Text
import Pkix.Proofs.Delimited
import Pkix.Proofs.Der.Canonicity
import Pkix.Proofs.Name.Match
import Pkix.Proofs.Oid.Text

/-!
# What a displayed name says

A name that is shown can be read in one way only: where a relative name or an assertion ends does
not depend on what the values contain.

* `Bytes.toHex_inj`, `Assertion.typeText_inj`: texts that stand for one thing each.
* `Assertion.Shows`: two assertions are shown alike, for an attribute and a text or an encoding.
* `Assertion.text_append_inj`, `RelativeName.text_append_inj`: the text of an assertion or a
  relative name can be told from what may follow it.
* `Name.text_unambiguous`: names are shown alike only where their assertions are, one by one.
-/

namespace Pkix

open Der

/-! ## Octets and attributes -/

namespace Bytes

theorem hexDigit_inj {m n : Nat} (hm : m < 16) (hn : n < 16) (h : hexDigit m = hexDigit n) :
    m = n := by
  have hall : ∀ m < 16, ∀ n < 16, hexDigit m = hexDigit n → m = n := by decide
  exact hall m hm n hn h

theorem toList_toHex_cons (x : UInt8) (b : Bytes) :
    (toHex (x :: b)).toList =
      hexDigit (x.toNat / 16) :: hexDigit (x.toNat % 16) :: (toHex b).toList := by
  simp [toHex]

/-- A hexadecimal text, `toHex a`, stands for one string of octets. -/
theorem toHex_inj {a b : Bytes} (h : (toHex a).toList = (toHex b).toList) : a = b := by
  induction a generalizing b with
  | nil =>
    cases b with
    | nil => rfl
    | cons y b => simp [toHex] at h
  | cons x a ih =>
    cases b with
    | nil => simp [toHex] at h
    | cons y b =>
      simp only [toList_toHex_cons, List.cons.injEq] at h
      obtain ⟨hhigh, hlow, htail⟩ := h
      have hx := x.toNat_lt
      have hy := y.toNat_lt
      have hhigh := hexDigit_inj (by omega) (by omega) hhigh
      have hlow := hexDigit_inj (by omega) (by omega) hlow
      rw [ih htail, UInt8.toNat_inj.mp (show x.toNat = y.toNat by omega)]

theorem isAlphanum_of_mem_toHex {b : Bytes} : ∀ c ∈ (toHex b).toList, c.isAlphanum = true := by
  have hall : ∀ n < 16, (hexDigit n).isAlphanum = true := by decide
  induction b with
  | nil => simp [toHex]
  | cons x b ih =>
    have hx := x.toNat_lt
    rw [toList_toHex_cons, List.forall_mem_cons, List.forall_mem_cons]
    exact ⟨hall _ (by omega), hall _ (by omega), ih⟩

end Bytes

namespace Assertion

/-- A keyword `p.2` stands for one attribute, has no equals sign in it and does not look like an
identifier. -/
theorem keywords_distinct : ∀ p ∈ keywords, '=' ∉ p.2.toList ∧ ¬"OID.".toList <+: p.2.toList ∧
    ∀ q ∈ keywords, p.2 = q.2 → p.1 = q.1 := by
  decide +kernel

/-- The attribute of `a` is shown by its keyword or by its identifier. -/
theorem typeText_cases (a : Assertion) :
    (a.type, a.typeText) ∈ keywords ∨ a.typeText = "OID." ++ a.type.text := by
  unfold typeText
  split
  · rename_i keyword hkeyword
    obtain ⟨l, r, hkeywords, -⟩ := List.lookup_eq_some_iff.mp hkeyword
    exact .inl (by rw [hkeywords]; simp)
  · exact .inr rfl

theorem notMem_typeText (a : Assertion) : '=' ∉ a.typeText.toList := by
  obtain ha | ha := a.typeText_cases
  · exact (keywords_distinct _ ha).1
  · rw [ha, String.toList_append, List.mem_append, not_or]
    exact ⟨by decide, a.type.notMem_text⟩

/-- The text of an attribute, `a.typeText`, stands for one attribute. -/
theorem typeText_inj {a b : Assertion} (h : a.typeText = b.typeText) : a.type = b.type := by
  have hkeyword {p : Oid × String} (hp : p ∈ keywords) (o : Oid) : p.2 ≠ "OID." ++ o.text := by
    intro h
    exact (keywords_distinct p hp).2.1 ⟨o.text.toList, by rw [h, String.toList_append]⟩
  obtain ha | ha := a.typeText_cases
  · obtain hb | hb := b.typeText_cases
    · exact (keywords_distinct _ ha).2.2 _ hb h
    · exact absurd (h.trans hb) (hkeyword ha _)
  · obtain hb | hb := b.typeText_cases
    · exact absurd (h.symm.trans ha) (hkeyword hb _)
    · rw [ha, hb, ← String.toList_inj, String.toList_append, String.toList_append] at h
      exact Oid.text_inj (String.toList_inj.mp (List.append_cancel_left h))

/-! ## Values -/

/-- What may follow an assertion, `t`: nothing, another relative name or another assertion. -/
def Stop (t : List Char) : Prop := t = [] ∨ t.head? = some ',' ∨ [' ', '+', ' '] <+: t

/-- What follows an assertion, `t`, does not begin like a value. -/
theorem Stop.head?_cases {t : List Char} (h : Stop t) :
    t.head? = none ∨ t.head? = some ',' ∨ t.head? = some ' ' := by
  obtain rfl | h | ⟨u, rfl⟩ := h
  · exact .inl rfl
  · exact .inr (.inl h)
  · exact .inr (.inr rfl)

/-- The character `c` does not end a value that is shown as it is. -/
def inPlain (c : Char) : Bool := c != ',' && c != '+'

/-- What follows an assertion, `t`, has a blank before it exactly where it goes on with a plus
sign. -/
theorem Stop.split {t : List Char} (h : Stop t) : ∃ u, (∀ c ∈ u.head?, inPlain c = false) ∧
    t = (if u.head? = some '+' then [' '] else []) ++ u := by
  obtain rfl | h | ⟨u, rfl⟩ := h
  · exact ⟨[], by simp, rfl⟩
  · exact ⟨t, by simp [h, inPlain], by simp [h]⟩
  · exact ⟨'+' :: ' ' :: u, by simp [inPlain], rfl⟩

/-- A value that is shown as it is, `u`, ends where something may follow (`Stop`). -/
theorem plain_append_inj {u v r s : List Char} (hu : ∀ c ∈ u, isDelimiter c = false)
    (hv : ∀ c ∈ v, isDelimiter c = false) (hr : Stop r) (hs : Stop s) (h : u ++ r = v ++ s) :
    u = v ∧ r = s := by
  have hplain {w : List Char} (hw : ∀ c ∈ w, isDelimiter c = false) {t : List Char} :
      ∀ c ∈ w ++ (if t.head? = some '+' then [' '] else []), inPlain c = true := by
    intro c hc
    obtain hc | hc := List.mem_append.mp hc
    · have := hw c hc
      simp only [isDelimiter, List.contains_cons, Bool.or_eq_false_iff, beq_eq_false_iff_ne] at this
      simp [inPlain, this]
    · split at hc
      · obtain rfl := List.mem_singleton.mp hc
        rfl
      · cases hc
  obtain ⟨r₁, hr₁, rfl⟩ := hr.split
  obtain ⟨s₁, hs₁, rfl⟩ := hs.split
  rw [← List.append_assoc, ← List.append_assoc] at h
  obtain ⟨hbefore, rfl⟩ := append_inj_of_span (hplain hu) (hplain hv) hr₁ hs₁ h
  exact ⟨List.append_cancel_right hbefore, rfl⟩

/-- A value that is shown as it is, `u`, does not begin like one between quotes or one in
hexadecimal digits. -/
theorem plain_append_ne {u r t : List Char} {c : Char} (hu : ∀ c ∈ u, isDelimiter c = false)
    (hr : Stop r) (hc : c = '"' ∨ c = '#') : u ++ r ≠ c :: t := by
  intro h
  cases u with
  | nil =>
    rw [List.nil_append] at h
    have hhead := hr.head?_cases
    rw [h] at hhead
    obtain rfl | rfl := hc <;> simp at hhead
  | cons x u =>
    obtain rfl : x = c := (List.cons.inj h).1
    have := hu x List.mem_cons_self
    obtain rfl | rfl := hc <;> simp [isDelimiter] at this

/-- The character `c` as it stands between quotes. -/
def escaped (c : Char) : List Char := if c == '\\' || c == '"' then ['\\', c] else [c]

theorem quoted_eq (cs : List Char) : quoted cs = '"' :: (cs.flatMap escaped ++ ['"']) := rfl

theorem escaped_append_ne {c : Char} {t u : List Char} : escaped c ++ t ≠ '"' :: u := by
  unfold escaped
  split
  · simp
  · rename_i hc
    rintro h
    obtain rfl := (List.cons.inj h).1
    exact hc rfl

theorem escaped_append_inj {c d : Char} {t u : List Char} (h : escaped c ++ t = escaped d ++ u) :
    c = d ∧ t = u := by
  unfold escaped at h
  grind

/-- Between quotes a text `u` ends at the first quote without a backslash of its own. -/
theorem quoted_append_inj {u v r s : List Char} (h : quoted u ++ r = quoted v ++ s) :
    u = v ∧ r = s := by
  simp only [quoted_eq, List.cons_append, List.cons.injEq, true_and, List.append_assoc] at h
  induction u generalizing v with
  | nil =>
    cases v with
    | nil => simpa using h
    | cons d v =>
      rw [List.flatMap_cons, List.append_assoc] at h
      exact absurd h.symm escaped_append_ne
  | cons c u ih =>
    rw [List.flatMap_cons, List.append_assoc] at h
    cases v with
    | nil => exact absurd h escaped_append_ne
    | cons d v =>
      rw [List.flatMap_cons, List.append_assoc] at h
      obtain ⟨rfl, htail⟩ := escaped_append_inj h
      obtain ⟨rfl, hrest⟩ := ih htail
      exact ⟨rfl, hrest⟩

/-- A text in hexadecimal digits, `a.toHex`, ends where something may follow. -/
theorem toHex_append_inj {a b : Bytes} {r s : List Char} (hr : Stop r) (hs : Stop s)
    (h : a.toHex.toList ++ r = b.toHex.toList ++ s) : a = b ∧ r = s := by
  have hstop {t : List Char} (ht : Stop t) : ∀ c ∈ t.head?, c.isAlphanum = false := by
    intro c hc
    obtain hhead | hhead | hhead := ht.head?_cases <;> rw [hhead] at hc <;> cases hc <;> rfl
  obtain ⟨hdigits, hrest⟩ := append_inj_of_span Bytes.isAlphanum_of_mem_toHex
    Bytes.isAlphanum_of_mem_toHex (hstop hr) (hstop hs) h
  exact ⟨Bytes.toHex_inj hdigits, hrest⟩

/-- The value of `a` is shown as it is, between quotes, or as its encoding. -/
theorem valueText_cases (a : Assertion) :
    (∃ s, a.value.text = .ok s ∧ a.valueText = s ∧ ∀ c ∈ s.toList, isDelimiter c = false) ∨
      (∃ s, a.value.text = .ok s ∧ a.valueText.toList = quoted s.toList) ∨
      ((∀ s, a.value.text ≠ .ok s) ∧ a.valueText.toList = '#' :: a.value.octets.toHex.toList) := by
  unfold valueText
  cases htext : a.value.text with
  | error e => exact .inr (.inr ⟨nofun, by simp⟩)
  | ok s =>
    by_cases hquotes : needsQuotes s.toList = true
    · exact .inr (.inl ⟨s, rfl, by simp [hquotes]⟩)
    · refine .inl ⟨s, rfl, by simp [hquotes], ?_⟩
      simp only [needsQuotes, Bool.or_eq_true, not_or, List.any_eq_true, not_exists, not_and]
        at hquotes
      exact fun c hc => Bool.not_eq_true _ ▸ hquotes.2 c hc

/-- The assertions `a` and `b` are shown alike: they are about one attribute, and their values are
the same text or, where they are no text, have the same encoding. -/
def Shows (a b : Assertion) : Prop :=
  a.type = b.type ∧ ((∃ s, a.value.text = .ok s ∧ b.value.text = .ok s) ∨
    ((∀ s, a.value.text ≠ .ok s) ∧ (∀ s, b.value.text ≠ .ok s) ∧ a.value.octets = b.value.octets))

/-- The value of `a` can be told from its text, before what may follow it, `r`. -/
theorem valueText_append_inj {a b : Assertion} {r s : List Char} (hr : Stop r) (hs : Stop s)
    (h : a.valueText.toList ++ r = b.valueText.toList ++ s) :
    ((∃ s, a.value.text = .ok s ∧ b.value.text = .ok s) ∨
      ((∀ s, a.value.text ≠ .ok s) ∧ (∀ s, b.value.text ≠ .ok s) ∧
        a.value.octets = b.value.octets)) ∧ r = s := by
  obtain ⟨u, hu, htext, hplain⟩ | ⟨u, hu, htext⟩ | ⟨hu, htext⟩ := a.valueText_cases <;>
    obtain ⟨v, hv, htext', hplain'⟩ | ⟨v, hv, htext'⟩ | ⟨hv, htext'⟩ := b.valueText_cases <;>
    rw [htext, htext'] at h
  · obtain ⟨huv, hrest⟩ := plain_append_inj hplain hplain' hr hs h
    obtain rfl := String.toList_inj.mp huv
    exact ⟨.inl ⟨u, hu, hv⟩, hrest⟩
  · exact absurd h (plain_append_ne hplain hr (.inl rfl))
  · exact absurd h (plain_append_ne hplain hr (.inr rfl))
  · exact absurd h.symm (plain_append_ne hplain' hs (.inl rfl))
  · obtain ⟨huv, hrest⟩ := quoted_append_inj h
    obtain rfl := String.toList_inj.mp huv
    exact ⟨.inl ⟨u, hu, hv⟩, hrest⟩
  · rw [quoted_eq] at h
    simp at h
  · exact absurd h.symm (plain_append_ne hplain' hs (.inr rfl))
  · rw [quoted_eq] at h
    simp at h
  · obtain ⟨hoctets, hrest⟩ := toHex_append_inj hr hs (List.cons.inj h).2
    exact ⟨.inr ⟨hu, hv, hoctets⟩, hrest⟩

theorem toList_text (a : Assertion) :
    a.text.toList = a.typeText.toList ++ '=' :: a.valueText.toList := by
  simp [text]

theorem toList_text_ne_nil (a : Assertion) : a.text.toList ≠ [] := by simp [toList_text]

/-- An assertion `a` can be told from its text, before what may follow it, `r`. -/
theorem text_append_inj {a b : Assertion} {r s : List Char} (hr : Stop r) (hs : Stop s)
    (h : a.text.toList ++ r = b.text.toList ++ s) : a.Shows b ∧ r = s := by
  rw [toList_text, toList_text, List.append_assoc, List.append_assoc] at h
  have htype {a : Assertion} : ∀ c ∈ a.typeText.toList, (c != '=') = true := by
    rintro c hc
    exact bne_iff_ne.mpr fun h => a.notMem_typeText (h ▸ hc)
  obtain ⟨htype, hvalue⟩ := append_inj_of_span htype htype (by simp) (by simp) h
  obtain ⟨hvalue, hrest⟩ := valueText_append_inj hr hs (List.cons.inj hvalue).2
  exact ⟨⟨typeText_inj (String.toList_inj.mp htype), hvalue⟩, hrest⟩

theorem Shows.text_eq {a b : Assertion} (h : a.Shows b) : a.text = b.text := by
  obtain ⟨htype, ⟨s, ha, hb⟩ | ⟨ha, hb, hoctets⟩⟩ := h
  · simp only [text, typeText, valueText, htype, ha, hb]
  · have hvalue : a.value = b.value := Value.octets_inj hoctets
    simp only [text, typeText, valueText, htype, hvalue]

/-- Assertions `a` and `b` that are shown alike are the same. -/
theorem Shows.mark_eq {a b : Assertion} (h : a.Shows b) : (a.type, a.mark) = (b.type, b.mark) := by
  obtain ⟨htype, ⟨s, ha, hb⟩ | ⟨ha, hb, hoctets⟩⟩ := h
  · simp only [mark, htype, ha, hb]
  · have hvalue : a.value = b.value := Value.octets_inj hoctets
    simp only [mark, htype, hvalue]

end Assertion

/-! ## Relative names -/

namespace RelativeName

/-- The assertions of `m` and `n` are shown alike, one by one. -/
def Shows (m n : RelativeName) : Prop := List.Forall₂ Assertion.Shows m.assertions n.assertions

theorem toList_text (n : RelativeName) :
    n.text.toList = [' ', '+', ' '].intercalate (n.assertions.map (·.text.toList)) := by
  simp [text, Function.comp_def]

theorem assertions_ne_nil_of_ofValue {limits : Limits} {v : Value} {n : RelativeName}
    (h : ofValue limits v = .ok n) : n.assertions ≠ [] := by
  simp only [ofValue, ite_error_eq_ok, bind_eq_ok, error_ite_eq_ok, pure_eq_ok] at h
  obtain ⟨-, _, -, as, -, has, rfl⟩ := h
  exact fun hnil => has (List.isEmpty_iff.mpr hnil)

theorem toList_text_ne_nil {n : RelativeName} (hn : n.assertions ≠ []) : n.text.toList ≠ [] := by
  obtain ⟨a, as, has⟩ := List.exists_cons_of_ne_nil hn
  rw [toList_text, has, List.map_cons]
  exact fun h => a.toList_text_ne_nil (eq_nil_of_intercalate_cons h)

/-- What may follow a relative name, `t`: nothing or another one. -/
def Stop (t : List Char) : Prop := t = [] ∨ t.head? = some ','

/-- A relative name `m` can be told from its text, before what may follow it, `r`. -/
theorem text_append_inj {m n : RelativeName} (hm : m.assertions ≠ []) (hn : n.assertions ≠ [])
    {r s : List Char} (hr : Stop r) (hs : Stop s) (h : m.text.toList ++ r = n.text.toList ++ s) :
    m.Shows n ∧ r = s := by
  rw [toList_text, toList_text] at h
  have hstop {t : List Char} (ht : Stop t) : Assertion.Stop t :=
    ht.imp_right .inl
  have hplus {t : List Char} (ht : Stop t) : ¬[' ', '+', ' '] <+: t := by
    rintro ⟨u, rfl⟩
    simp [Stop] at ht
  exact intercalate_append_inj (fun t => .inr (.inr (List.prefix_append _ _)))
    (fun a _ b _ t u ht hu => Assertion.text_append_inj ht hu) hm hn (hstop hr) (hstop hs)
    (hplus hr) (hplus hs) h

theorem Shows.text_eq {m n : RelativeName} (h : m.Shows n) : m.text = n.text := by
  have : m.assertions.map Assertion.text = n.assertions.map Assertion.text := by
    rw [← List.forall₂_eq_eq_eq, List.forall₂_map_left_iff, List.forall₂_map_right_iff]
    exact h.imp fun _ _ => Assertion.Shows.text_eq
  rw [text, text, this]

theorem Shows.same {m n : RelativeName} (h : m.Shows n) : m.same n = true := by
  have hmarks : m.marks = n.marks := by
    rw [marks, marks, ← List.forall₂_eq_eq_eq, List.forall₂_map_left_iff,
      List.forall₂_map_right_iff]
    exact h.imp fun _ _ => Assertion.Shows.mark_eq
  exact same_iff.mpr ⟨congrArg List.length hmarks, fun k => by rw [hmarks]⟩

end RelativeName

/-! ## Names -/

namespace Name

theorem toList_text (n : Name) :
    n.text.toList = [',', ' '].intercalate (n.rdns.reverse.map (·.text.toList)) := by
  simp [text, Function.comp_def]

theorem assertions_ne_nil_of_ofValue {limits : Limits} {v : Value} {n : Name}
    (h : ofValue limits v = .ok n) : ∀ r ∈ n.rdns, r.assertions ≠ [] := by
  simp only [ofValue, ite_error_eq_ok, bind_eq_ok, pure_eq_ok] at h
  obtain ⟨-, vs, -, rdns, hrdns, rfl⟩ := h
  intro r hr
  obtain ⟨v, -, hv⟩ := exists_of_mapM hrdns r hr
  exact RelativeName.assertions_ne_nil_of_ofValue hv

/-- The relative names of `a` can be told from `a.text`. -/
theorem shows_of_text_eq {a b : Name} (ha : ∀ r ∈ a.rdns, r.assertions ≠ [])
    (hb : ∀ r ∈ b.rdns, r.assertions ≠ []) (h : a.text = b.text) :
    List.Forall₂ RelativeName.Shows a.rdns b.rdns := by
  have hnil {m n : Name} (hn : ∀ r ∈ n.rdns, r.assertions ≠ []) (hm : m.rdns = [])
      (h : n.text = m.text) : n.rdns = [] := by
    rw [← String.toList_inj, toList_text, toList_text, hm, List.reverse_nil, List.map_nil,
      List.intercalate_nil] at h
    rw [← List.reverse_eq_nil_iff]
    by_contra hne
    obtain ⟨r, rs, hrs⟩ := List.exists_cons_of_ne_nil hne
    rw [hrs, List.map_cons] at h
    have hr : r ∈ n.rdns := by
      rw [← List.mem_reverse, hrs]
      exact List.mem_cons_self
    exact RelativeName.toList_text_ne_nil (hn r hr) (eq_nil_of_intercalate_cons h)
  by_cases hanil : a.rdns = []
  · rw [hanil, hnil hb hanil h.symm]
    exact .nil
  · have hbnil : b.rdns ≠ [] := fun hbnil => hanil (hnil ha hbnil h)
    have htext := congrArg (String.toList · ++ []) h
    simp only [toList_text] at htext
    obtain ⟨hall, -⟩ := intercalate_append_inj (R := RelativeName.Shows) (S := RelativeName.Stop)
      (fun t => .inr rfl)
      (fun m hm n hn t u ht hu => RelativeName.text_append_inj
        (ha m (List.mem_reverse.mp hm)) (hb n (List.mem_reverse.mp hn)) ht hu)
      (by simpa using hanil) (by simpa using hbnil) (.inl rfl) (.inl rfl) (by simp) (by simp) htext
    exact List.forall₂_reverse_iff.mp hall

theorem text_eq_of_shows {a b : Name} (h : List.Forall₂ RelativeName.Shows a.rdns b.rdns) :
    a.text = b.text := by
  have : a.rdns.reverse.map RelativeName.text = b.rdns.reverse.map RelativeName.text := by
    rw [← List.forall₂_eq_eq_eq, List.forall₂_map_left_iff, List.forall₂_map_right_iff,
      List.forall₂_reverse_iff]
    exact h.imp fun _ _ => RelativeName.Shows.text_eq
  rw [text, text, this]

/-- **A displayed name has one reading.** Two names `a` and `b` that were read are shown by the same
text exactly where they have as many relative names, and in each as many assertions, which are one
by one about the same attributes and give them the same text or, where a value is no text, the same
encoding (`Shows`). Such names are the same. -/
theorem text_unambiguous {limits limits' : Limits} {v w : Value} {a b : Name}
    (ha : ofValue limits v = .ok a) (hb : ofValue limits' w = .ok b) :
    (a.text = b.text ↔ List.Forall₂ (fun m n : RelativeName =>
      List.Forall₂ Assertion.Shows m.assertions n.assertions) a.rdns b.rdns) ∧
    (a.text = b.text → (a == b) = true) := by
  have hshows : a.text = b.text ↔ List.Forall₂ RelativeName.Shows a.rdns b.rdns :=
    ⟨shows_of_text_eq (assertions_ne_nil_of_ofValue ha) (assertions_ne_nil_of_ofValue hb),
      text_eq_of_shows⟩
  exact ⟨hshows, fun h => beq_iff.mpr ((hshows.mp h).imp fun _ _ => RelativeName.Shows.same)⟩

/-- A name of relative names with one of the `assertions` each. -/
def spelled (assertions : List (Oid × UInt8 × Bytes)) : Bytes :=
  Write.element Tag.sequence (assertions.flatMap fun (type, tag, content) =>
    Write.element Tag.set
      (Write.element Tag.sequence (Write.oid type ++ Write.element tag content)))

/-- The common name `a, O=b` as text of some type, `tag`. -/
def commaName (tag : UInt8) : Bytes :=
  spelled [(Oid.commonName, tag, [0x61, 0x2c, 0x20, 0x4f, 0x3d, 0x62])]

/-- The common name `a` in the organization `b`. -/
def organizationName : Bytes :=
  spelled [(Oid.organization, Tag.utf8String, [0x62]), (Oid.commonName, Tag.utf8String, [0x61])]

/-- `text_unambiguous` where a common name with a comma in it is shown alike in two types of text,
and not like a common name and an organization. -/
theorem exists_text_unambiguous_comma :
    ∃ a a' b, ofOctets (commaName Tag.utf8String) = .ok a ∧
      ofOctets (commaName Tag.teletexString) = .ok a' ∧ ofOctets organizationName = .ok b ∧
      a.text = a'.text ∧ (a == a') = true ∧ a.text ≠ b.text := by
  obtain ⟨⟨a, a', b⟩, h, hfacts⟩ := exists_of_map_toOption
    (x := do return (← ofOctets (commaName Tag.utf8String),
      ← ofOctets (commaName Tag.teletexString), ← ofOctets organizationName))
    (f := fun (a, a', b) => (a.text == a'.text, a.rdns.length, b.rdns.length))
    (b := (true, 1, 2)) (by decide +kernel)
  simp only [bind_eq_ok, pure_eq_ok, Prod.mk.injEq, beq_iff_eq] at h hfacts
  obtain ⟨_, ha, _, ha', _, hb, rfl, rfl, rfl⟩ := h
  obtain ⟨htext, hone, htwo⟩ := hfacts
  refine ⟨_, _, _, ha, ha', hb, htext, ?_, fun hspoof => ?_⟩
  all_goals
    obtain ⟨v, -, ha⟩ := bind_eq_ok.mp ha
    obtain ⟨v', -, ha'⟩ := bind_eq_ok.mp ha'
    obtain ⟨w, -, hb⟩ := bind_eq_ok.mp hb
  · exact (text_unambiguous ha ha').2 htext
  · have hlen := ((text_unambiguous ha hb).1.mp hspoof).length_eq
    omega

end Name

end Pkix
