import Pkix.SignedData.ContentInfo
import Pkix.Proofs.Algorithm
import Pkix.Proofs.Der.Canonicity

/-!
# Contents: reading and writing are inverse

* `ContentInfo.read_current_eq_ok`: in the current grammar, a content is read exactly where what is
  written for it comes next.
* `ContentInfo.read_legacy_of_current`, `ContentInfo.read_legacy_eq_ok`: the legacy grammar reads
  that too, and contents that stand bare.
* `ContentInfo.algorithms_and_contents_exact`: algorithms and contents at every cursor.
* `ContentInfo.exists_read_of_step`: what is read is settled by the octets that it is read from.
-/

namespace Pkix.ContentInfo

open Der

theorem short_wrapper : Value.Short wrapper := by decide

/-- The octets of a content in its `wrapper`, none for no content. -/
def wrapped : Option Value → Bytes
  | some v => Write.element wrapper v.octets
  | none => []

/-- What stands inside the SEQUENCE of `info`, a content with its type. -/
def body (info : ContentInfo) : Bytes := Write.oid info.type ++ wrapped info.content

theorem octets_eq (info : ContentInfo) : info.octets = Write.element Tag.sequence info.body := by
  obtain ⟨type, content⟩ := info
  cases content <;> rfl

/-- The content proper, `o`, is what is left at `c`, in its wrapper. -/
theorem readContent_finish {c : Cursor} {o : Option Value} (h : c.rest.length < UInt32.size) :
    (∃ c', readContent c .current = .ok (o, c') ∧ c'.rest = []) ↔ c.rest = wrapped o := by
  constructor
  · rintro ⟨c', hread, hrest⟩
    unfold readContent at hread
    split at hread
    · rename_i hpeek
      cases hread
      exact hrest
    · split at hread
      · simp only [bind_eq_ok, pure_eq_ok, Prod.exists, Cursor.enter_eq_ok short_wrapper,
          Cursor.value_eq_ok, Cursor.finish_eq_ok, Prod.mk.injEq] at hread
        obtain ⟨_, after, ⟨content, rfl, hstep, -⟩, v, inner, ⟨hv, -⟩, -, hinner, rfl, rfl⟩ := hread
        have hcontent := hv.rest
        rw [hinner, List.append_nil, Cursor.rest_ofBuffer] at hcontent
        rw [hstep.rest, hrest, List.append_nil, wrapped, hcontent]
      · rw [if_neg (by decide)] at hread
        cases hread
  · intro hrest
    cases o with
    | none =>
      refine ⟨c, ?_, hrest⟩
      simp [readContent, Cursor.peek, hrest, wrapped, pure, Except.pure]
    | some v =>
      have hlen : v.octets.length < UInt32.size := by
        rw [hrest] at h
        simp only [wrapped, Write.element, List.length_cons, List.length_append] at h
        omega
      have hrest' : c.rest = Write.element wrapper v.octets ++ [] := by
        rw [hrest, List.append_nil, wrapped]
      obtain ⟨c', hstep, hempty, -⟩ := Cursor.exists_step hrest'
      obtain ⟨inner, hv, hinner, -⟩ := Cursor.exists_step (c := .ofBuffer v.octets c.limits)
        (b := v.octets) (r := []) (by rw [List.append_nil, Cursor.rest_ofBuffer])
      have henter := (Cursor.enter_eq_ok short_wrapper).mpr ⟨v.octets, rfl, hstep, hlen⟩
      have hvalue := Cursor.value_eq_ok.mpr ⟨hv, Value.framed_of_length hlen⟩
      have hfinish := Cursor.finish_eq_ok (u := ()).mpr hinner
      have hpeek : c.peek = some wrapper := by
        rw [Cursor.peek, hrest']
        rfl
      refine ⟨c', ?_, hempty⟩
      simp only [readContent, hpeek, if_pos, bind_eq_ok, Prod.exists]
      exact ⟨_, _, henter, _, _, hvalue, _, hfinish, rfl⟩

/-- **Contents.** In the current grammar, `info` is read exactly where what is written for it comes
next at `c`. -/
theorem read_current_eq_ok {c c' : Cursor} {info : ContentInfo} :
    read c .current = .ok (info, c') ↔
      c.Step info.octets c' ∧ info.body.length < UInt32.size := by
  simp only [read, bind_eq_ok, pure_eq_ok, Prod.exists, Cursor.oid_eq_ok, Prod.mk.injEq,
    Cursor.enter_eq_ok (show Value.Short Tag.sequence by decide), Cursor.finish_eq_ok, octets_eq]
  constructor
  · rintro ⟨_, next, ⟨b, rfl, hstep, hlen⟩, type, c₁, ⟨htype, -⟩, content, c₂, hcontent, -, hrest,
      rfl, rfl⟩
    have hb := htype.rest
    rw [Cursor.rest_ofBuffer] at hb
    have hlen₁ : c₁.rest.length < UInt32.size := by
      rw [hb, List.length_append] at hlen
      omega
    rw [(readContent_finish hlen₁).mp ⟨c₂, hcontent, hrest⟩] at hb
    rw [hb] at hstep hlen
    exact ⟨hstep, hlen⟩
  · rintro ⟨hstep, hlen⟩
    have hbody := Cursor.rest_ofBuffer info.body c.limits
    obtain ⟨c₁, htype, hrest, -⟩ := Cursor.exists_step hbody
    have hlen' := hlen
    rw [body, List.length_append] at hlen'
    have hid : info.type.content.length < UInt32.size := by
      simp only [Write.oid, Write.element, List.length_cons, List.length_append] at hlen'
      omega
    obtain ⟨c₂, hcontent, hfinish⟩ := (readContent_finish (by rw [hrest]; omega)).mpr hrest
    exact ⟨_, c', ⟨info.body, rfl, hstep, hlen⟩, _, c₁, ⟨htype, hid⟩, _, c₂, hcontent, (), hfinish,
      rfl, rfl⟩

/-- Whatever is read in the `current` grammar is read in the `legacy` one too. -/
theorem read_legacy_of_current {c : Cursor} {r : ContentInfo × Cursor}
    (h : read c .current = .ok r) : read c .legacy = .ok r := by
  have hcontent {c : Cursor} {r : Option Value × Cursor}
      (h : readContent c .current = .ok r) : readContent c .legacy = .ok r := by
    unfold readContent at h ⊢
    split at h
    · exact h
    · split at h
      · rename_i hwrapper
        rw [if_pos hwrapper]
        exact h
      · cases h
  simp only [read, bind_eq_ok, Prod.exists] at h ⊢
  obtain ⟨_, _, hbody, _, _, htype, _, _, hread, _, hfinish, h⟩ := h
  exact ⟨_, _, hbody, _, _, htype, _, _, hcontent hread, _, hfinish, h⟩

/-- The content proper of the `legacy` grammar is that of the current one, or it stands bare, as
`v`. -/
theorem readContent_legacy_eq_ok {c c' : Cursor} {o : Option Value} :
    readContent c .legacy = .ok (o, c') ↔
      readContent c .current = .ok (o, c') ∨
        ∃ v, o = some v ∧ v.octets.head? ≠ some wrapper ∧ c.value = .ok (v, c') := by
  have hhead {v : Value} (h : c.value = .ok (v, c')) : v.octets.head? = c.peek :=
    (Cursor.peek_of_step (Cursor.value_eq_ok.mp h).1 (Write.octets_ne_nil v)).symm
  unfold readContent
  cases hpeek : c.peek with
  | none =>
    constructor
    · exact .inl
    · rintro (h | ⟨v, -, -, hv⟩)
      · exact h
      · have hnil := (hhead hv).trans hpeek
        exact absurd (List.head?_eq_none_iff.mp hnil) (Write.octets_ne_nil v)
  | some x =>
    dsimp only
    by_cases hx : x = wrapper
    · simp only [if_pos hx]
      constructor
      · exact .inl
      · rintro (h | ⟨v, -, hne, hv⟩)
        · exact h
        · exact absurd ((hhead hv).trans (hpeek.trans (congrArg some hx))) hne
    · simp only [if_neg hx, if_true, reduceCtorEq, if_false, false_or, bind_eq_ok, pure_eq_ok,
        Prod.exists, Prod.mk.injEq]
      constructor
      · rintro ⟨v, _, hv, rfl, rfl⟩
        refine ⟨v, rfl, ?_, hv⟩
        rw [hhead hv, hpeek]
        simpa using hx
      · rintro ⟨v, rfl, -, hv⟩
        exact ⟨v, c', hv, rfl, rfl⟩

/-- What a bare content is written as: its `type` and the value `v` without a wrapper. -/
def bareOctets (type : Oid) (v : Value) : Bytes :=
  Write.element Tag.sequence (Write.oid type ++ v.octets)

/-- **Legacy contents.** The `legacy` grammar reads what the current one reads, and otherwise a type
with a bare value `v` that does not begin like a `wrapper`. -/
theorem read_legacy_eq_ok {c c' : Cursor} {info : ContentInfo} :
    read c .legacy = .ok (info, c') ↔
      read c .current = .ok (info, c') ∨
        ∃ v, info.content = some v ∧ v.octets.head? ≠ some wrapper ∧
          c.Step (bareOctets info.type v) c' ∧
          (Write.oid info.type ++ v.octets).length < UInt32.size := by
  simp only [read, bind_eq_ok, pure_eq_ok, Prod.exists, Cursor.oid_eq_ok, Prod.mk.injEq,
    Cursor.enter_eq_ok (show Value.Short Tag.sequence by decide), Cursor.finish_eq_ok,
    readContent_legacy_eq_ok, bareOctets]
  constructor
  · rintro ⟨_, next, ⟨b, rfl, hstep, hlen⟩, type, c₁, htype, content, c₂,
      hcurrent | ⟨v, rfl, hbare, hv⟩, u, hrest, rfl, rfl⟩
    · exact .inl ⟨_, next, ⟨b, rfl, hstep, hlen⟩, type, c₁, htype, content, c₂, hcurrent, u, hrest,
        rfl, rfl⟩
    · have hb : b = Write.oid type ++ v.octets := by
        have hoid := htype.1.rest
        rwa [(Cursor.value_eq_ok.mp hv).1.rest, hrest, List.append_nil, Cursor.rest_ofBuffer]
          at hoid
      subst hb
      exact .inr ⟨v, rfl, hbare, hstep, hlen⟩
  · rintro (⟨inner, next, henter, type, c₁, htype, content, c₂, hcurrent, u, hrest, hinfo, hnext⟩ |
      ⟨v, hcontent, hbare, hstep, hlen⟩)
    · exact ⟨inner, next, henter, type, c₁, htype, content, c₂, .inl hcurrent, u, hrest, hinfo,
        hnext⟩
    · obtain ⟨type, content⟩ := info
      obtain rfl : content = some v := hcontent
      obtain ⟨hoid, hvalue⟩ := Write.length_lt_of_element_append hlen
      obtain ⟨c₁, htype, hrest, -⟩ := Cursor.exists_step
        (Cursor.rest_ofBuffer (Write.oid type ++ v.octets) c.limits)
      rw [← List.append_nil v.octets] at hrest
      obtain ⟨c₂, hv, hend, -⟩ := Cursor.exists_step hrest
      exact ⟨_, c', ⟨_, rfl, hstep, hlen⟩, type, c₁, ⟨htype, hoid⟩, some v, c₂,
        .inr ⟨v, rfl, hbare, Cursor.value_eq_ok.mpr ⟨hv, Value.framed_of_length hvalue⟩⟩, (), hend,
        rfl, rfl⟩

/-- A bare content `v` is nothing that the `current` grammar reads. -/
theorem read_current_ne_ok_of_bare {c c' : Cursor} {info : ContentInfo} {v : Value}
    (hcontent : info.content = some v) (hbare : v.octets.head? ≠ some wrapper)
    (hstep : c.Step (bareOctets info.type v) c')
    (hlen : (Write.oid info.type ++ v.octets).length < UInt32.size) (r : ContentInfo × Cursor) :
    read c .current ≠ .ok r := by
  intro hcurrent
  have hlegacy := read_legacy_eq_ok.mpr (.inr ⟨v, hcontent, hbare, hstep, hlen⟩)
  have hsame := hlegacy.symm.trans (read_legacy_of_current hcurrent)
  obtain rfl : (info, c') = r := Except.ok.inj hsame
  obtain ⟨hwrapped, -⟩ := read_current_eq_ok.mp hcurrent
  have hoctets := List.append_cancel_right (hwrapped.rest.symm.trans hstep.rest)
  rw [octets_eq] at hoctets
  have hbody := List.append_cancel_left (Write.content_of_element hoctets)
  rw [hcontent] at hbody
  rw [← hbody] at hbare
  exact hbare rfl

/-- **Algorithms and contents are read exactly.** At every cursor `c`, an algorithm `a` is read
exactly where its encoding comes next, its parameters, if they are a NULL, are empty, and its
content is shorter than `2 ^ 32` octets; the cursor goes on right after the encoding, as `c'`. So is
a content `info` in the `current` grammar. The `legacy` grammar gives the same where the current one
succeeds, and where that refuses, it gives exactly the types that are followed by one bare value
whose first octet is not that of a `wrapper`. Identifiers are well formed by their type. Parameters
that are absent are written differently from any that are there, a NULL among them. -/
theorem algorithms_and_contents_exact :
    (∀ (c c' : Cursor) (a : Algorithm), Algorithm.read c = .ok (a, c') ↔
      c.Step a.octets c' ∧ a.content.length < UInt32.size ∧
        ∀ v ∈ a.parameters, v.is Tag.null = true → v.content = []) ∧
    (∀ (c c' : Cursor) (info : ContentInfo), read c .current = .ok (info, c') ↔
      c.Step info.octets c' ∧ info.body.length < UInt32.size) ∧
    (∀ (c c' : Cursor) (info : ContentInfo), read c .legacy = .ok (info, c') ↔
      read c .current = .ok (info, c') ∨
        (∀ r, read c .current ≠ .ok r) ∧ ∃ v, info.content = some v ∧
          v.octets.head? ≠ some wrapper ∧ c.Step (bareOctets info.type v) c' ∧
          (Write.oid info.type ++ v.octets).length < UInt32.size) ∧
    (∀ (id : Oid) (v : Value), Algorithm.octets ⟨id, none⟩ ≠ Algorithm.octets ⟨id, some v⟩) := by
  refine ⟨fun c c' a => Algorithm.read_eq_ok, fun c c' info => read_current_eq_ok,
    fun c c' info => ?_, Algorithm.octets_none_ne_some⟩
  rw [read_legacy_eq_ok]
  constructor
  · rintro (hcurrent | ⟨v, hcontent, hbare, hstep, hlen⟩)
    · exact .inl hcurrent
    · exact .inr ⟨read_current_ne_ok_of_bare hcontent hbare hstep hlen, v, hcontent, hbare, hstep,
        hlen⟩
  · rintro (hcurrent | ⟨-, hbare⟩)
    · exact .inl hcurrent
    · exact .inr hbare

/-! ## The same octets elsewhere -/

/-- A content proper is read in the same way wherever the same octets are left, as at `k`. -/
theorem exists_readContent_of_rest {c c' : Cursor} {g : Grammar} {o : Option Value}
    (h : readContent c g = .ok (o, c')) :
    ∃ b, c.Step b c' ∧
      ∀ {k k' : Cursor}, k.rest = c.rest → k.Step b k' → readContent k g = .ok (o, k') := by
  unfold readContent at h
  split at h
  · rename_i hpeek
    cases h
    refine ⟨[], Cursor.step_nil.mpr rfl, fun {k k'} hrest hstep => ?_⟩
    obtain rfl := Cursor.step_nil.mp hstep
    rw [readContent, Cursor.peek, hrest, ← Cursor.peek, hpeek]
    rfl
  · rename_i x hpeek
    split at h
    · rename_i hx
      simp only [bind_eq_ok, pure_eq_ok, Prod.exists, Cursor.enter_eq_ok short_wrapper,
        Cursor.value_eq_ok, Cursor.finish_eq_ok, Prod.mk.injEq] at h
      obtain ⟨_, _, ⟨content, rfl, hstep, hlen⟩, v, inner, ⟨hv, hframed⟩, -, hinner, rfl, rfl⟩ := h
      refine ⟨_, hstep, fun {k k'} hrest hstep => ?_⟩
      obtain ⟨inner', hv', hinner', -⟩ :=
        Cursor.exists_step (c := .ofBuffer content k.limits) hv.rest
      rw [readContent, Cursor.peek, hrest, ← Cursor.peek, hpeek]
      simp only [if_pos hx, bind_eq_ok, pure_eq_ok, Prod.exists, Cursor.enter_eq_ok short_wrapper,
        Cursor.value_eq_ok, Cursor.finish_eq_ok, Prod.mk.injEq]
      exact ⟨_, k', ⟨content, rfl, hstep, hlen⟩, v, inner', ⟨hv', hframed⟩, (),
        hinner'.trans hinner, rfl, rfl⟩
    · rename_i hx
      simp only [ite_error_eq_ok, bind_eq_ok, pure_eq_ok, Prod.exists, Cursor.value_eq_ok,
        Prod.mk.injEq] at h
      obtain ⟨hg, v, _, ⟨hstep, hframed⟩, rfl, rfl⟩ := h
      refine ⟨_, hstep, fun {k k'} hrest hstep => ?_⟩
      rw [readContent, Cursor.peek, hrest, ← Cursor.peek, hpeek]
      simp only [if_neg hx, if_pos hg, bind_eq_ok, pure_eq_ok, Prod.exists, Cursor.value_eq_ok,
        Prod.mk.injEq]
      exact ⟨v, k', ⟨hstep, hframed⟩, rfl, rfl⟩

/-- **The same octets.** A content `info` is read from octets `b` that come next, and in the same
way wherever they do: neither what follows nor the limits count. -/
theorem exists_read_of_step {c c' : Cursor} {g : Grammar} {info : ContentInfo}
    (h : read c g = .ok (info, c')) :
    ∃ b, c.Step b c' ∧ ∀ {k k' : Cursor}, k.Step b k' → read k g = .ok (info, k') := by
  simp only [read, bind_eq_ok, pure_eq_ok, Prod.exists, Cursor.oid_eq_ok, Prod.mk.injEq,
    Cursor.enter_eq_ok (show Value.Short Tag.sequence by decide), Cursor.finish_eq_ok] at h ⊢
  obtain ⟨_, _, ⟨body, rfl, hstep, hlen⟩, type, c₁, ⟨htype, htlen⟩, content, c₂, hcontent, -, hrest,
    rfl, rfl⟩ := h
  obtain ⟨b, hb, hread⟩ := exists_readContent_of_rest hcontent
  refine ⟨_, hstep, fun {k k'} hk => ?_⟩
  obtain ⟨k₁, htype', hrest₁, -⟩ := Cursor.exists_step (c := .ofBuffer body k.limits) htype.rest
  obtain ⟨k₂, hb', hrest₂, -⟩ := Cursor.exists_step (hrest₁.trans hb.rest)
  exact ⟨_, k', ⟨body, rfl, hk, hlen⟩, type, k₁, ⟨htype', htlen⟩, content, k₂, hread hrest₁ hb', (),
    hrest₂.trans hrest, rfl, rfl⟩

end Pkix.ContentInfo
