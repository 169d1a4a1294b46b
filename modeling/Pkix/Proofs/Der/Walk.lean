import Pkix.Der.Walk
import Pkix.Proofs.Der.PlaceCursor

/-!
# Walks stay inside their buffer

A walk that leaves only what it has entered, and comes back only to places of the buffer that it is
in, never gets past the end of a buffer. The one thing that can stop it is that no room can be made
for as many elements as are expected.

* `Cursor.perform`: what a reading call comes to at a cursor; `Cursor.perform_place`: at its place.
* `Place.perform_eq_none_iff`: where a reading call stops.
* `Place.Spans`: the element between two places. `Place.spans_of_perform`: what a reading call
  passes.
* `Walk.inside_of_turn`, `Walk.inside_of_run`: what one call preserves, and what many do.
* `Walk.stays_inside`: what there is to say about walks.
-/

namespace Pkix.Der

open Checked

/-! ## Reading calls -/

namespace Read

/-- How many elements the call expects, where it collects any. -/
def expected? : Read → Option Nat
  | .sequence n | .setOf _ n | .all n => some n
  | _ => none

/-- The tag of the element that the call enters, where it enters one. -/
def entered? : Read → Option UInt8
  | .sequence _ => some Tag.sequence
  | .setOf tag _ => some (tag.getD Tag.set)
  | _ => none

/-- The call has passed an element, if it has given this answer. `optional` passes one where it
`found` one. -/
def consumes : Read → Reply → Bool
  | .all _, _ | .peek, _ | .finish, _ | .rest, _ | .optional _, .found none => false
  | _, _ => true

end Read

/-- Reads at the cursor `c` as `Place.perform` does at a place. -/
def Cursor.perform (c : Cursor) : Read → Except Error (Reply × Cursor)
  | .value => do
    let (v, next) ← c.value
    return (.value v, next)
  | .raw => do
    let (b, next) ← c.raw
    return (.octets b, next)
  | .expect tag => do
    let (v, next) ← c.expect tag
    return (.value v, next)
  | .optional tag => do
    let (v, next) ← c.optional tag
    return (.found v, next)
  | .sequence n => do
    let (vs, next) ← c.collectElements Tag.sequence n
    return (.elements vs, next)
  | .setOf tag n => do
    let (vs, next) ← c.collectElements (tag.getD Tag.set) n
    return (.elements vs, next)
  | .all n => do
    let vs ← c.collect n
    return (.elements vs, c)
  | .integer => do
    let (n, next) ← c.integer
    return (.integer n, next)
  | .word => do
    let (n, next) ← c.word
    return (.word n, next)
  | .oid => do
    let (id, next) ← c.oid
    return (.oid id, next)
  | .octetString => do
    let (b, next) ← c.octetString
    return (.octets b, next)
  | .algorithm => do
    let (a, next) ← Algorithm.read c
    return (.algorithm a, next)
  | .peek => return (.octet c.peek, c)
  | .finish => do
    c.finish
    return (.nothing, c)
  | .rest => return (.octets c.rest, c)

/-- **Reading by index is reading at a cursor**, `c.place`, where there is room for the elements
that `r` expects. -/
theorem Cursor.perform_place {c : Cursor} (h : c.place.Inside) {r : Read}
    (hroom : ∀ n, r.expected? = some n → c.limits.RoomFor n) :
    (c.place.perform r).run =
      some ((c.perform r).map fun (reply, next) => (reply, next.place)) := by
  cases r with
  | value => exact run_bind_map (value_place h) fun _ _ => rfl
  | raw => exact run_bind_map (raw_place h) fun _ _ => rfl
  | expect tag => exact run_bind_map (expect_place h tag) fun _ _ => rfl
  | optional tag => exact run_bind_map (optional_place h tag) fun _ _ => rfl
  | sequence n => exact run_bind_map (collectElements_place h _ (hroom n rfl)) fun _ _ => rfl
  | setOf tag n => exact run_bind_map (collectElements_place h _ (hroom n rfl)) fun _ _ => rfl
  | all n => exact run_bind_map (collect_place h (hroom n rfl)) fun _ _ => rfl
  | integer => exact run_bind_map (integer_place h) fun _ _ => rfl
  | word => exact run_bind_map (word_place h) fun _ _ => rfl
  | oid => exact run_bind_map (oid_place h) fun _ _ => rfl
  | octetString => exact run_bind_map (octetString_place h) fun _ _ => rfl
  | algorithm => exact run_bind_map (algorithm_place h) fun _ _ => rfl
  | peek =>
    rw [perform, ← peek_place]
    rfl
  | finish => exact run_bind_map (finish_place h) fun _ _ => rfl
  | rest =>
    rw [Place.perform, Place.looking, run_bind_of_ok (rest_place h)]
    rfl

namespace Place

variable {p q : Place} {tag : UInt8} {r : Read} {reply : Reply}

/-- The cursor at the place `p`. -/
def cursor (p : Place) : Cursor :=
  ⟨p.buffer, p.position, p.buffer.drop p.position, p.limits, rfl⟩

theorem place_cursor (p : Place) : p.cursor.place = p := rfl

/-! ### Where a call stops -/

/-- No room can be made for what `r` expects, once it has come to what it collects. -/
def Overreserves (p : Place) (r : Read) : Prop :=
  ∃ n, r.expected? = some n ∧ ¬p.limits.RoomFor n ∧
    ∀ tag, r.entered? = some tag → ∃ inner next, (p.enter tag).run = some (.ok (inner, next))

theorem run_replying_eq_none {α : Type} {form : α → Reply} {x : Checked (α × Place)} :
    (replying form x).run = none ↔ x.run = none := by
  rw [replying, run_bind]
  rcases x.run with _ | _ | _ <;> simp

theorem limits_of_enter {inner next : Place} (h : (p.enter tag).run = some (.ok (inner, next))) :
    inner.limits = p.limits := by
  obtain ⟨⟨e, after⟩, -, h⟩ := run_bind_eq_ok.mp h
  cases h
  rfl

theorem collectElements_eq_none_iff (h : p.Inside) {n : Nat} (hroom : ¬p.limits.RoomFor n) :
    (p.collectElements tag n).run = none ↔
      ∃ inner next, (p.enter tag).run = some (.ok (inner, next)) := by
  have hanswer := Cursor.enter_place (c := p.cursor) h tag
  rw [place_cursor] at hanswer
  rw [collectElements, run_bind]
  cases hentered : p.cursor.enter tag with
  | error e =>
    rw [hentered] at hanswer
    simp [hanswer, Except.map]
  | ok a =>
    obtain ⟨inner, next⟩ := a
    rw [hentered] at hanswer
    have hlimits := limits_of_enter hanswer
    have hstop : (inner.place.collect n).run = none := collect_eq_none (by rwa [hlimits])
    simp [hanswer, Except.map, hstop]

/-- **Where a reading call stops**: a call `r` inside a buffer does exactly where it
`Overreserves`. -/
theorem perform_eq_none_iff (h : p.Inside) : (p.perform r).run = none ↔ p.Overreserves r := by
  by_cases hroom : ∀ n, r.expected? = some n → p.limits.RoomFor n
  · have hanswer := Cursor.perform_place (c := p.cursor) h hroom
    rw [place_cursor] at hanswer
    rw [hanswer]
    constructor
    · intro hnone
      cases hnone
    · rintro ⟨n, hn, hnot, -⟩
      exact absurd (hroom n hn) hnot
  · simp only [Classical.not_forall] at hroom
    obtain ⟨n, hn, hroom⟩ := hroom
    cases r with
    | sequence | setOf =>
      cases hn
      rw [perform, run_replying_eq_none, collectElements_eq_none_iff h hroom]
      constructor
      · rintro ⟨inner, next, henter⟩
        refine ⟨n, rfl, hroom, fun tag htag => ?_⟩
        cases htag
        exact ⟨inner, next, henter⟩
      · rintro ⟨-, -, -, henter⟩
        exact henter _ rfl
    | all =>
      cases hn
      have hstop : (p.perform (.all n)).run = none := by
        rw [perform, looking, run_bind, collect_eq_none hroom]
        rfl
      rw [hstop]
      exact ⟨fun _ => ⟨n, rfl, hroom, fun tag htag => nomatch htag⟩, fun _ => rfl⟩
    | _ => cases hn

/-! ### What a call passes -/

/-- The octets from the place `p` up to a later one, `q`. -/
def upTo (p q : Place) : Bytes := (p.buffer.drop p.position).take (q.position - p.position)

/-- `v` stands between the places `p` and `q` of a buffer. -/
structure Spans (p : Place) (v : Value) (q : Place) : Prop where
  next : q = { p with position := p.position + v.octets.length }
  position_le : q.position ≤ q.buffer.length
  octets : p.upTo q = v.octets

theorem Spans.inside {v : Value} (h : p.Spans v q) (hp : p.Inside) : q.Inside := by
  refine ⟨h.position_le, ?_⟩
  have hlt := hp.length_lt
  rw [h.next]
  exact hlt

theorem Spans.position_lt {v : Value} (h : p.Spans v q) : p.position < q.position := by
  have hpos := v.size_pos
  rw [← Value.length_octets] at hpos
  rw [h.next]
  show p.position < p.position + v.octets.length
  omega

/-- The content of `v` is what the octets up to `q`, the place after `v`, end with. -/
theorem Spans.content {v : Value} (h : p.Spans v q) (hp : p.Inside) :
    v.content = (p.buffer.take q.position).drop (q.position - v.content.length) := by
  have hposition : q.position = p.position + v.octets.length := by rw [h.next]
  have hoctets := h.octets
  rw [upTo, hposition, Nat.add_sub_cancel_left] at hoctets
  have hsplit : p.buffer.take q.position = (p.buffer.take p.position ++ v.header) ++ v.content := by
    rw [hposition, List.take_add, hoctets, Value.octets, List.append_assoc]
  have hstart : (p.buffer.take p.position ++ v.header).length = q.position - v.content.length := by
    rw [List.length_append, List.length_take_of_le hp.position_le, hposition, Value.octets,
      List.length_append]
    omega
  rw [hsplit, ← hstart, List.drop_left]

/-- An element `e` stands between the place `p` where it was read and the place `q` after it. -/
theorem spans_of_element (h : p.Inside) {e : Element}
    (helement : p.element.run = some (.ok (e, q))) : ∃ v, e = .ofValue v ∧ p.Spans v q := by
  rw [element_eq h] at helement
  cases hfirst : Value.first (p.buffer.drop p.position) with
  | error _ =>
    rw [hfirst] at helement
    cases helement
  | ok v =>
    rw [hfirst] at helement
    cases helement
    obtain ⟨hpre, -⟩ := Value.first_eq_ok.mp hfirst
    have hle := hpre.length_le
    have hposition := h.position_le
    rw [List.length_drop] at hle
    refine ⟨v, rfl, by rw [Value.length_octets], ?_, ?_⟩
    · show p.position + v.size ≤ p.buffer.length
      rw [← Value.length_octets]
      omega
    · show (p.buffer.drop p.position).take (p.position + v.size - p.position) = v.octets
      rw [Nat.add_sub_cancel_left, ← Value.length_octets]
      exact (List.prefix_iff_eq_take.mp hpre).symm

section Passing

variable {e : Element}

theorem element_of_value {v : Value} (h : p.value.run = some (.ok (v, q))) :
    ∃ e, p.element.run = some (.ok (e, q)) := by
  obtain ⟨⟨e, next⟩, he, h⟩ := run_bind_eq_ok.mp h
  cases h
  exact ⟨e, he⟩

theorem element_of_raw {b : Bytes} (h : p.raw.run = some (.ok (b, q))) :
    ∃ e, e.raw = b ∧ p.element.run = some (.ok (e, q)) := by
  obtain ⟨⟨e, next⟩, he, h⟩ := run_bind_eq_ok.mp h
  cases h
  exact ⟨e, rfl, he⟩

theorem element_of_tagged (h : (p.tagged tag).run = some (.ok (e, q))) :
    p.element.run = some (.ok (e, q)) ∧ e.tag = Tag.ofOctet tag := by
  obtain ⟨⟨e', next⟩, he, h⟩ := run_bind_eq_ok.mp h
  by_cases htag : e'.tag.isOctet tag = true
  · simp only [if_pos htag] at h
    cases h
    exact ⟨he, by simpa [Tag.isOctet] using htag⟩
  · simp only [if_neg htag] at h
    cases h

theorem element_of_expect {v : Value} (h : (p.expect tag).run = some (.ok (v, q))) :
    ∃ e, p.element.run = some (.ok (e, q)) := by
  obtain ⟨⟨e, next⟩, he, h⟩ := run_bind_eq_ok.mp h
  cases h
  exact ⟨e, (element_of_tagged he).1⟩

theorem element_of_optional {found : Option Value}
    (h : (p.optional tag).run = some (.ok (found, q))) :
    ((Read.optional tag).consumes (.found found) = false → q = p) ∧
    ((Read.optional tag).consumes (.found found) = true →
      ∃ e, p.element.run = some (.ok (e, q))) := by
  rw [optional] at h
  by_cases hpeek : p.peek = some tag
  · rw [if_pos hpeek] at h
    obtain ⟨⟨v, next⟩, hv, h⟩ := run_bind_eq_ok.mp h
    cases h
    refine ⟨fun hstays => ?_, fun _ => element_of_expect hv⟩
    cases hstays
  · rw [if_neg hpeek] at h
    cases h
    refine ⟨fun _ => rfl, fun hpasses => ?_⟩
    cases hpasses

theorem element_of_enter {inner : Place} (h : (p.enter tag).run = some (.ok (inner, q))) :
    ∃ e, p.element.run = some (.ok (e, q)) ∧ e.tag = Tag.ofOctet tag ∧
      inner = ofBuffer e.content p.limits := by
  obtain ⟨⟨e, next⟩, he, h⟩ := run_bind_eq_ok.mp h
  cases h
  obtain ⟨he, htag⟩ := element_of_tagged he
  exact ⟨e, he, htag, rfl⟩

theorem element_of_collectElements {n : Nat} {vs : List Value}
    (h : (p.collectElements tag n).run = some (.ok (vs, q))) :
    ∃ e, p.element.run = some (.ok (e, q)) := by
  obtain ⟨⟨inner, next⟩, henter, h⟩ := run_bind_eq_ok.mp h
  obtain ⟨vs', -, h⟩ := run_bind_eq_ok.mp h
  cases h
  obtain ⟨e, he, -⟩ := element_of_enter henter
  exact ⟨e, he⟩

theorem run_replying_eq_ok {α : Type} {form : α → Reply} {x : Checked (α × Place)}
    (h : (replying form x).run = some (.ok (reply, q))) :
    ∃ a, reply = form a ∧ x.run = some (.ok (a, q)) := by
  obtain ⟨⟨a, next⟩, ha, h⟩ := run_bind_eq_ok.mp h
  cases h
  exact ⟨a, rfl, ha⟩

theorem eq_of_looking {α : Type} {form : α → Reply} {x : Checked α}
    (h : (p.looking form x).run = some (.ok (reply, q))) : q = p := by
  obtain ⟨a, -, h⟩ := run_bind_eq_ok.mp h
  cases h
  rfl

/-- A call `r` that consumes passes one element, whatever it makes of it; one that does not stays at
`p`. -/
theorem element_of_perform (h : (p.perform r).run = some (.ok (reply, q))) :
    (r.consumes reply = false → q = p) ∧
    (r.consumes reply = true → ∃ e, p.element.run = some (.ok (e, q))) := by
  cases r with
  | all | peek | finish | rest => exact ⟨fun _ => eq_of_looking h, nofun⟩
  | optional tag =>
    obtain ⟨found, hreply, hread⟩ := run_replying_eq_ok h
    subst hreply
    exact element_of_optional hread
  | value =>
    obtain ⟨v, hreply, hread⟩ := run_replying_eq_ok h
    subst hreply
    exact ⟨nofun, fun _ => element_of_value hread⟩
  | raw =>
    obtain ⟨b, hreply, hread⟩ := run_replying_eq_ok h
    obtain ⟨e, -, he⟩ := element_of_raw hread
    subst hreply
    exact ⟨nofun, fun _ => ⟨e, he⟩⟩
  | expect tag =>
    obtain ⟨v, hreply, hread⟩ := run_replying_eq_ok h
    subst hreply
    exact ⟨nofun, fun _ => element_of_expect hread⟩
  | sequence | setOf =>
    obtain ⟨vs, hreply, hread⟩ := run_replying_eq_ok h
    subst hreply
    exact ⟨nofun, fun _ => element_of_collectElements hread⟩
  | integer | word | algorithm =>
    obtain ⟨n, hreply, hread⟩ := run_replying_eq_ok h
    obtain ⟨⟨v, next⟩, hexpect, hread⟩ := run_bind_eq_ok.mp hread
    obtain ⟨_, -, hread⟩ := run_bind_eq_ok.mp hread
    cases hread
    subst hreply
    exact ⟨nofun, fun _ => element_of_expect hexpect⟩
  | oid =>
    obtain ⟨id, hreply, hread⟩ := run_replying_eq_ok h
    obtain ⟨⟨e, next⟩, htagged, hread⟩ := run_bind_eq_ok.mp hread
    obtain ⟨_, -, hread⟩ := run_bind_eq_ok.mp hread
    cases hread
    subst hreply
    exact ⟨nofun, fun _ => ⟨e, (element_of_tagged htagged).1⟩⟩
  | octetString =>
    obtain ⟨b, hreply, hread⟩ := run_replying_eq_ok h
    obtain ⟨⟨e, next⟩, he, hread⟩ := run_bind_eq_ok.mp hread
    cases hread
    subst hreply
    exact ⟨nofun, fun _ => ⟨e, (element_of_tagged he).1⟩⟩

end Passing

theorem raw_of_element {e : Element} (h : p.element.run = some (.ok (e, q))) :
    p.raw.run = some (.ok (e.raw, q)) := by
  rw [raw, run_bind_of_ok h]
  rfl

/-- **What a reading call passes**: an element from `p` to `q` whose encoding `p.raw` gives, or
nothing. -/
theorem spans_of_perform (h : p.Inside) (hread : (p.perform r).run = some (.ok (reply, q))) :
    (r.consumes reply = false → q = p) ∧
    (r.consumes reply = true → ∃ v, p.Spans v q ∧ p.raw.run = some (.ok (v.octets, q))) := by
  obtain ⟨hstays, hpasses⟩ := element_of_perform hread
  refine ⟨hstays, fun hconsumes => ?_⟩
  obtain ⟨e, he⟩ := hpasses hconsumes
  have hraw := raw_of_element he
  obtain ⟨v, rfl, hspans⟩ := spans_of_element h he
  exact ⟨v, hspans, hraw⟩

theorem inside_of_perform (h : p.Inside) (hread : (p.perform r).run = some (.ok (reply, q))) :
    q.Inside ∧ q.limits = p.limits := by
  obtain ⟨hstays, hpasses⟩ := spans_of_perform h hread
  cases hconsumes : r.consumes reply with
  | false =>
    rw [hstays hconsumes]
    exact ⟨h, rfl⟩
  | true =>
    obtain ⟨v, hspans, -⟩ := hpasses hconsumes
    refine ⟨hspans.inside h, ?_⟩
    rw [hspans.next]

/-- **What is entered**, `inner`, is the content of the element `v` that is passed, which it ends
with. -/
theorem spans_of_enter {inner : Place} (h : p.Inside)
    (henter : (p.enter tag).run = some (.ok (inner, q))) :
    ∃ v, p.Spans v q ∧ v.tag = Tag.ofOctet tag ∧ inner = ofBuffer v.content p.limits ∧
      v.content = (p.buffer.take q.position).drop (q.position - v.content.length) := by
  obtain ⟨e, he, htag, hinner⟩ := element_of_enter henter
  obtain ⟨v, rfl, hspans⟩ := spans_of_element h he
  exact ⟨v, hspans, htag, hinner, hspans.content h⟩

theorem inside_of_enter {inner : Place} (h : p.Inside)
    (henter : (p.enter tag).run = some (.ok (inner, q))) :
    (inner.Inside ∧ inner.limits = p.limits) ∧ q.Inside ∧ q.limits = p.limits := by
  obtain ⟨v, hspans, -, rfl, -⟩ := spans_of_enter h henter
  have hcontent := v.length_content_le
  have hposition : q.position = p.position + v.octets.length := by rw [hspans.next]
  have hbuffer : q.buffer = p.buffer := by rw [hspans.next]
  have hle := hspans.position_le
  have hlt := h.length_lt
  rw [hbuffer, hposition] at hle
  refine ⟨⟨⟨Nat.zero_le _, ?_⟩, rfl⟩, hspans.inside h, by rw [hspans.next]⟩
  show v.content.length < _
  omega

/-! ### Consecutive calls -/

/-- `Reads p bs q`: calls that consume, one after the other, lead from `p` to `q`, past elements
with the encodings `bs`. -/
inductive Reads : Place → List Bytes → Place → Prop
  | nil (p : Place) : Reads p [] p
  | cons {p q s after : Place} {r : Read} {reply : Reply} {b : Bytes} {bs : List Bytes}
      (read : (p.perform r).run = some (.ok (reply, q))) (consumes : r.consumes reply = true)
      (raw : p.raw.run = some (.ok (b, after))) (rest : Reads q bs s) : Reads p (b :: bs) s

theorem Reads.between {bs : List Bytes} (hreads : p.Reads bs q) (h : p.Inside) :
    q.Inside ∧ q = { p with position := p.position + bs.flatten.length } ∧
      bs.flatten <+: p.buffer.drop p.position := by
  induction hreads with
  | nil p => exact ⟨h, rfl, List.nil_prefix⟩
  | @cons p q s after r reply b bs read consumes raw rest ih =>
    obtain ⟨v, hspans, hraw⟩ := (spans_of_perform h read).2 consumes
    rw [raw] at hraw
    cases hraw
    obtain ⟨hs, heq, hpre⟩ := ih (hspans.inside h)
    have hposition : q.position = p.position + v.octets.length := by rw [hspans.next]
    have hbuffer : q.buffer = p.buffer := by rw [hspans.next]
    have hoctets := hspans.octets
    rw [upTo, hposition, Nat.add_sub_cancel_left] at hoctets
    rw [hbuffer, hposition] at hpre
    refine ⟨hs, ?_, ?_⟩
    · rw [heq, hspans.next, List.flatten_cons, List.length_append, Nat.add_assoc]
    · obtain ⟨t, ht⟩ := hpre
      refine ⟨t, ?_⟩
      rw [List.flatten_cons, List.append_assoc, ht, ← List.drop_drop]
      nth_rewrite 1 [← hoctets]
      exact List.take_append_drop _ _

/-- **Encodings of consecutive elements**, `bs`, are the octets between the first place `p` and the
last place `q`. -/
theorem Reads.flatten_eq {bs : List Bytes} (hreads : p.Reads bs q) (h : p.Inside) :
    bs.flatten = p.upTo q := by
  obtain ⟨-, hq, hpre⟩ := hreads.between h
  have hlen : q.position - p.position = bs.flatten.length := by
    rw [hq, Nat.add_sub_cancel_left]
  rw [upTo, hlen]
  exact List.prefix_iff_eq_take.mp hpre

end Place

/-! ## Walks -/

namespace Walk

variable {w next : Walk} {c : Call} {calls : List Call} {limits : Limits}

/-- The call can be made in `w`: there is an element to leave, or a mark in the buffer to come back
to. -/
def Allows (w : Walk) : Call → Prop
  | .leave => w.outer ≠ []
  | .rewind name => ∃ p ∈ w.marks.lookup name, p.buffer = w.place.buffer
  | _ => True

instance (w : Walk) : (c : Call) → Decidable (w.Allows c)
  | .leave => inferInstanceAs (Decidable (w.outer ≠ []))
  | .rewind name =>
    inferInstanceAs (Decidable (∃ p ∈ w.marks.lookup name, p.buffer = w.place.buffer))
  | .read _ | .enter _ | .mark _ => .isTrue trivial

/-- Every call of a list can be made (`Allows`) when it is its turn. -/
def Follows : Walk → List Call → Prop
  | _, [] => True
  | w, c :: calls => w.Allows c ∧ ∀ r ∈ w.turn c, r.2.Follows calls

instance decidableFollows : (w : Walk) → (calls : List Call) → Decidable (w.Follows calls)
  | _, [] => .isTrue trivial
  | w, c :: calls =>
    have (next : Walk) : Decidable (next.Follows calls) := decidableFollows next calls
    inferInstanceAs (Decidable (w.Allows c ∧ ∀ r ∈ w.turn c, r.2.Follows calls))

/-- All places of `w` are inside their buffers and under the same `limits`. -/
structure Inside (limits : Limits) (w : Walk) : Prop where
  place : w.place.Inside
  outer : ∀ p ∈ w.outer, p.Inside
  marks : ∀ m ∈ w.marks, m.2.Inside
  place_limits : w.place.limits = limits
  outer_limits : ∀ p ∈ w.outer, p.limits = limits

theorem inside_start {b : Bytes} (h : b.length < 1 <<< 63) : (start b limits).Inside limits where
  place := ⟨Nat.zero_le _, h⟩
  outer := nofun
  marks := nofun
  place_limits := rfl
  outer_limits := nofun

/-! ### One call -/

theorem turn_eq_none : w.turn c = none ↔ (w.call c).run = none := by
  rw [turn]
  rcases (w.call c).run with _ | _ | _ <;> simp

/-- After a failed call `c` the walk is where it was, at `w`; otherwise it is where the call has
led. -/
theorem turn_eq_some {outcome : Except Error Reply} (h : w.turn c = some (outcome, next)) :
    (∃ e, outcome = .error e ∧ next = w) ∨
      ∃ reply, outcome = .ok reply ∧ (w.call c).run = some (.ok (reply, next)) := by
  rw [turn] at h
  cases hcall : (w.call c).run with
  | none =>
    rw [hcall] at h
    cases h
  | some r =>
    rw [hcall] at h
    cases r with
    | error e =>
      cases h
      exact .inl ⟨e, rfl, rfl⟩
    | ok a =>
      cases h
      exact .inr ⟨_, rfl, rfl⟩

theorem call_read_eq_none {r : Read} :
    (w.call (.read r)).run = none ↔ (w.place.perform r).run = none := by
  rw [call, run_bind]
  rcases (w.place.perform r).run with _ | _ | _ <;> simp

/-- Entering an element under `tag` does not stop. -/
theorem call_enter_ne_none (h : w.place.Inside) (tag : UInt8) :
    (w.call (.enter tag)).run ≠ none := by
  have henter := Cursor.enter_place (c := w.place.cursor) h tag
  rw [Place.place_cursor] at henter
  rw [call, run_bind, henter]
  cases w.place.cursor.enter tag <;> simp [Except.map]

/-- **Where a call stops**: a call `c` that can be made does exactly where it is a read that
`Overreserves`. -/
theorem turn_eq_none_iff (h : w.Inside limits) (hc : w.Allows c) :
    w.turn c = none ↔ ∃ r, c = .read r ∧ w.place.Overreserves r := by
  rw [turn_eq_none]
  cases c with
  | read r =>
    rw [call_read_eq_none, Place.perform_eq_none_iff h.place]
    constructor
    · intro hstop
      exact ⟨r, rfl, hstop⟩
    · rintro ⟨r', hr, hstop⟩
      cases hr
      exact hstop
  | enter tag =>
    have hanswer := call_enter_ne_none h.place tag
    simp [hanswer]
  | leave =>
    obtain ⟨p, outer, houter⟩ := List.exists_cons_of_ne_nil hc
    have hanswer : (require w.outer.head?).run = some (.ok p) := by
      rw [houter]
      rfl
    rw [call, run_bind_of_ok hanswer]
    simp
  | mark name =>
    rw [call]
    simp
  | rewind name =>
    obtain ⟨p, hp, -⟩ := hc
    rw [call, run_bind_of_ok (run_require_some hp)]
    simp

/-- **One call** `c` leaves a walk `w` inside. -/
theorem inside_of_turn {outcome : Except Error Reply} (h : w.Inside limits) (hc : w.Allows c)
    (hturn : w.turn c = some (outcome, next)) : next.Inside limits := by
  obtain ⟨-, -, rfl⟩ | ⟨reply, -, hcall⟩ := turn_eq_some hturn
  · exact h
  · cases c with
    | read r =>
      obtain ⟨⟨reply', p⟩, hread, hcall⟩ := run_bind_eq_ok.mp hcall
      cases hcall
      obtain ⟨hp, hlimits⟩ := Place.inside_of_perform h.place hread
      exact { h with place := hp, place_limits := hlimits.trans h.place_limits }
    | enter tag =>
      obtain ⟨⟨inner, p⟩, henter, hcall⟩ := run_bind_eq_ok.mp hcall
      cases hcall
      obtain ⟨⟨hinner, hinnerLimits⟩, hp, hlimits⟩ := Place.inside_of_enter h.place henter
      exact {
        h with
        place := hinner
        outer := List.forall_mem_cons.mpr ⟨hp, h.outer⟩
        place_limits := hinnerLimits.trans h.place_limits
        outer_limits := List.forall_mem_cons.mpr ⟨hlimits.trans h.place_limits, h.outer_limits⟩ }
    | leave =>
      obtain ⟨p, houter, hcall⟩ := run_bind_eq_ok.mp hcall
      cases hcall
      have hmem : p ∈ w.outer := List.mem_of_head? (run_require_eq_ok.mp houter)
      exact {
        h with
        place := h.outer p hmem
        outer := fun q hq => h.outer q (List.mem_of_mem_tail hq)
        place_limits := h.outer_limits p hmem
        outer_limits := fun q hq => h.outer_limits q (List.mem_of_mem_tail hq) }
    | mark name =>
      cases hcall
      exact { h with marks := List.forall_mem_cons.mpr ⟨h.place, h.marks⟩ }
    | rewind name =>
      obtain ⟨p, hmark, hcall⟩ := run_bind_eq_ok.mp hcall
      cases hcall
      have hlookup := run_require_eq_ok.mp hmark
      obtain ⟨p', hp', hbuffer⟩ := hc
      obtain rfl : p' = p := Option.some.inj (hp'.symm.trans hlookup)
      obtain ⟨before, after, hmarks, -⟩ := List.lookup_eq_some_iff.mp hlookup
      have hp : p'.Inside := h.marks (name, p') (by rw [hmarks]; simp)
      have hle := hp.position_le
      rw [hbuffer] at hle
      exact { h with place := ⟨hle, h.place.length_lt⟩ }

/-! ### Many calls -/

theorem run_cons : w.run (c :: calls) = (do
    let (outcome, next) ← w.turn c
    let (outcomes, last) ← next.run calls
    return (outcome :: outcomes, last)) := rfl

/-- **Many calls**, each made when it can be, leave a walk `w` inside. -/
theorem inside_of_run {outcomes : List (Except Error Reply)} {last : Walk} (h : w.Inside limits)
    (hrule : w.Follows calls) (hrun : w.run calls = some (outcomes, last)) :
    last.Inside limits := by
  induction calls generalizing w outcomes with
  | nil =>
    cases hrun
    exact h
  | cons c calls ih =>
    obtain ⟨hc, hcalls⟩ := hrule
    rw [run_cons, Option.bind_eq_bind, Option.bind_eq_some_iff] at hrun
    obtain ⟨⟨outcome, next⟩, hturn, hrun⟩ := hrun
    obtain ⟨⟨outcomes', last'⟩, hrun, hlast⟩ := Option.bind_eq_some_iff.mp hrun
    cases hlast
    exact ih (inside_of_turn h hc hturn) (hcalls _ hturn) hrun

/-- Limits that memory has room for stop no call `r`. -/
theorem not_overreserves {p : Place} {r : Read} (h : p.limits.maxElements * 32 < 1 <<< 63) :
    ¬p.Overreserves r := by
  rintro ⟨n, -, hroom, -⟩
  have hle : min n p.limits.maxElements ≤ p.limits.maxElements := Nat.min_le_right _ _
  exact hroom (Nat.lt_of_le_of_lt (Nat.mul_le_mul_right 32 hle) h)

theorem exists_run (h : w.Inside limits) (hrule : w.Follows calls)
    (hroom : limits.maxElements * 32 < 1 <<< 63) :
    ∃ outcomes last, w.run calls = some (outcomes, last) := by
  induction calls generalizing w with
  | nil => exact ⟨[], w, rfl⟩
  | cons c calls ih =>
    obtain ⟨hc, hcalls⟩ := hrule
    cases hturn : w.turn c with
    | none =>
      obtain ⟨r, -, hstop⟩ := (turn_eq_none_iff h hc).mp hturn
      rw [← h.place_limits] at hroom
      exact absurd hstop (not_overreserves hroom)
    | some a =>
      obtain ⟨outcome, next⟩ := a
      obtain ⟨outcomes, last, hrun⟩ := ih (inside_of_turn h hc hturn) (hcalls _ hturn)
      refine ⟨outcome :: outcomes, last, ?_⟩
      simp only [run_cons, hturn, hrun, Option.bind_eq_bind, Option.bind_some]
      rfl

/-- **Walks stay inside their buffer.** Let `calls` leave only what they have entered and come back
only to marks in the buffer that they are in (`Follows`). If the `limits` leave room for the
elements that may come, the calls all have an outcome. In any case, as far as they have one, the
walk `w` is in its buffer or at its end; the next call has an outcome too, unless no room can be
made for what it expects (`Overreserves`); what consumes an element goes on to the end of the whole
element, and nothing else moves; the encodings of elements that are read one after the other
(`Reads`) are the octets between the two places; and what is entered is the content of the element
that is passed. -/
theorem stays_inside (b : Bytes) (limits : Limits) (calls : List Call)
    (hlen : b.length < 1 <<< 63) (hrule : (start b limits).Follows calls) :
    (limits.maxElements * 32 < 1 <<< 63 →
      ∃ outcomes w, (start b limits).run calls = some (outcomes, w)) ∧
    ∀ outcomes w, (start b limits).run calls = some (outcomes, w) →
      w.place.position ≤ w.place.buffer.length ∧
      (∀ c, w.Allows c → (w.turn c = none ↔ ∃ r, c = .read r ∧ w.place.Overreserves r)) ∧
      (∀ r reply q, (w.place.perform r).run = some (.ok (reply, q)) →
        (r.consumes reply = false → q = w.place) ∧
        (r.consumes reply = true → w.place.position < q.position ∧
          ∃ v, w.place.Spans v q ∧ w.place.raw.run = some (.ok (v.octets, q)))) ∧
      (∀ encodings q, w.place.Reads encodings q → encodings.flatten = w.place.upTo q) ∧
      (∀ tag inner q, (w.place.enter tag).run = some (.ok (inner, q)) →
        w.place.position < q.position ∧
        ∃ v, w.place.Spans v q ∧ v.tag = Tag.ofOctet tag ∧ inner = .ofBuffer v.content limits ∧
          v.content =
            (w.place.buffer.take q.position).drop (q.position - v.content.length)) := by
  have hstart : (start b limits).Inside limits := inside_start hlen
  refine ⟨exists_run hstart hrule, fun outcomes w hrun => ?_⟩
  have h := inside_of_run hstart hrule hrun
  refine ⟨h.place.position_le, fun c hc => turn_eq_none_iff h hc, fun r reply q hread => ?_,
    fun encodings q hreads => hreads.flatten_eq h.place, fun tag inner q henter => ?_⟩
  · obtain ⟨hstays, hpasses⟩ := Place.spans_of_perform h.place hread
    refine ⟨hstays, fun hconsumes => ?_⟩
    obtain ⟨v, hspans, hraw⟩ := hpasses hconsumes
    exact ⟨hspans.position_lt, v, hspans, hraw⟩
  · obtain ⟨v, hspans, htag, hinner, hcontent⟩ := Place.spans_of_enter h.place henter
    rw [h.place_limits] at hinner
    exact ⟨hspans.position_lt, v, hspans, htag, hinner, hcontent⟩

/-- `stays_inside` at a sequence of a number and a NULL, entered past a missing octet string and
left halfway, with an octet string asked for in vain after it, and read again from the start. -/
theorem stays_inside_halfway :
    ∃ outcomes w, (start [0x30, 0x05, 0x02, 0x01, 0x07, 0x05, 0x00, 0x05, 0x00] .default).run
        [.mark "start", .enter 0x30, .read (.optional 0x04), .read .word, .leave,
          .read .octetString, .rewind "start", .read .raw] = some (outcomes, w) ∧
      w.place.position ≤ w.place.buffer.length := by
  obtain ⟨hrun, hinside⟩ := stays_inside
    [0x30, 0x05, 0x02, 0x01, 0x07, 0x05, 0x00, 0x05, 0x00] .default
    [.mark "start", .enter 0x30, .read (.optional 0x04), .read .word, .leave,
      .read .octetString, .rewind "start", .read .raw] (by decide) (by decide +kernel)
  obtain ⟨outcomes, w, h⟩ := hrun (by decide)
  exact ⟨outcomes, w, h, (hinside outcomes w h).1⟩

/-- Where `2 ^ 60` elements may come and as many are expected, `all` has no outcome, also where
nothing is left. -/
theorem run_overreserving :
    (start [] ⟨1024, 1 <<< 60⟩).Follows [.read (.all (1 <<< 60))] ∧
      (start [] ⟨1024, 1 <<< 60⟩).run [.read (.all (1 <<< 60))] = none := by
  constructor
  · decide +kernel
  · rfl

end Walk

end Pkix.Der
