import Pkix.Proofs.SignedData.Reencoding

/-!
# The two grammars have nothing in common

Signed data is read in the grammar that fits. No octets fit both, so it does not matter which one is
tried first.

* `ContentInfo.leadingType?`: the type of a content, which either grammar reads in the same way.
* `SignedData.not_both_ofValue`: a value is signed data in one grammar at most.
* `SignedData.ofOctets_eq_readEither`: reading is an attempt in the current grammar, then one in the
  legacy grammar.
* `SignedData.grammars_disjoint`: what follows for reading.
-/

namespace Pkix

open Der

/-! ## The type of the content -/

namespace ContentInfo

/-- The type that the octets `b` begin with if they are a content, in whichever grammar. -/
def leadingType? (b : Bytes) : Option Oid := Except.toOption do
  let (body, _) ← (Cursor.ofBuffer b .default).enter Tag.sequence
  let (type, _) ← body.oid
  return type

/-- The type is what any grammar `g` reads. -/
theorem leadingType?_of_read {b : Bytes} {limits : Limits} {g : Grammar} {info : ContentInfo}
    {c : Cursor} (h : read (Cursor.ofBuffer b limits) g = .ok (info, c)) :
    leadingType? b = some info.type := by
  simp only [read, bind_eq_ok, pure_eq_ok, Prod.exists, Prod.mk.injEq, Cursor.oid_eq_ok,
    Cursor.enter_eq_ok (show Value.Short Tag.sequence by decide)] at h
  obtain ⟨_, _, ⟨body, rfl, hbody, hlen⟩, type, _, ⟨htype, htlen⟩, -, -, -, -, -, rfl, -⟩ := h
  obtain ⟨c₁, hstep₁, -⟩ := Cursor.exists_step (c := Cursor.ofBuffer b .default) hbody.rest
  obtain ⟨c₂, hstep₂, -⟩ := Cursor.exists_step (c := Cursor.ofBuffer body .default) htype.rest
  rw [leadingType?, toOption_eq_some]
  simp only [bind_eq_ok, pure_eq_ok, Prod.exists, Cursor.oid_eq_ok,
    Cursor.enter_eq_ok (show Value.Short Tag.sequence by decide)]
  exact ⟨_, c₁, ⟨body, rfl, hstep₁, hlen⟩, type, c₂, ⟨hstep₂, htlen⟩, rfl⟩

end ContentInfo

namespace SignedData

variable {b : Bytes} {limits : Limits} {g : Grammar} {d d' : SignedData}

/-! ## A single value -/

theorem grammar_of_ofValue {v : Value} (h : ofValue limits g v = .ok d) : d.grammar = g := by
  simp only [ofValue, ite_error_eq_ok, bind_eq_ok, pure_eq_ok] at h
  obtain ⟨-, _, -, _, -, _, -, _, -, _, -, _, -, _, -, _, -, _, -, _, -, _, -, rfl⟩ := h
  rfl

/-- An optional set under `tag` is none where a plain set comes next. -/
theorem readOptionalSet_of_set {c c' : Cursor} {tag : UInt8} {a : Bytes} {r : List Value × Cursor}
    (htag : tag ≠ Tag.set) (hset : c.Step (Write.element Tag.set a) c')
    (h : readOptionalSet c tag = .ok r) : r = ([], c) := by
  have hpeek : c.peek = some Tag.set := Cursor.peek_of_step hset (by simp [Write.element])
  rw [readOptionalSet, hpeek, if_neg fun h => htag (Option.some.inj h).symm] at h
  cases h
  rfl

/-- **One value.** No value `v` is signed data in both grammars: after the content, the legacy
grammar has three sets where the current one has one set without a tag of its own. -/
theorem not_both_ofValue {v : Value} (h : ofValue limits .current v = .ok d) :
    ofValue limits .legacy v ≠ .ok d' := by
  intro h'
  simp only [ofValue, ite_error_eq_ok, bind_eq_ok, Prod.exists, readAids] at h h'
  obtain ⟨-, c₀, hstart, version, c₁, hversion, digests, c₂, hdigests, -, -, content, c₃, hcontent,
    certificates, crls, c₄, ⟨cs, k₁, hcs, rs, k₂, hrs, haids⟩, signers, c₅, hsigners, _, hfinish,
    -⟩ := h
  obtain ⟨-, _, hstart', _, _, hversion', _, _, hdigests', -, -, _, _, hcontent',
    -, -, -, ⟨_, _, hfirst, _, _, hsecond, -⟩, -⟩ := h'
  rw [hstart] at hstart'
  cases hstart'
  rw [hversion] at hversion'
  cases hversion'
  rw [hdigests] at hdigests'
  cases hdigests'
  rw [ContentInfo.read_legacy_of_current hcontent] at hcontent'
  cases hcontent'
  obtain ⟨hfirst, hlen, -⟩ := Cursor.setOf_eq_ok.mp hfirst
  obtain ⟨hsecond, -⟩ := Cursor.setOf_eq_ok.mp hsecond
  -- the current grammar finds no aids and takes the first set for the signers
  cases readOptionalSet_of_set (by decide) hfirst hcs
  cases readOptionalSet_of_set (by decide) hfirst hrs
  cases haids
  obtain ⟨hsigners, hlen', -⟩ := Cursor.setOf_eq_ok.mp hsigners
  have hrest := hsigners.rest
  rw [hfirst.rest] at hrest
  obtain ⟨-, hrest⟩ := Write.element_append_inj (by decide) hlen hlen' hrest
  rw [Cursor.finish_eq_ok.mp hfinish, hsecond.rest] at hrest
  cases hrest

/-! ## One attempt after the other -/

/-- Reads signed data in one grammar, `g`. -/
def readIn (b : Bytes) (limits : Limits) (g : Grammar) : Except Error SignedData := do
  read (← Cursor.start b limits) g

/-- Reads signed data in the grammar `first`, or in the grammar `second` where the first does not
fit. -/
def readEither (b : Bytes) (limits : Limits) (first second : Grammar) : Except Error SignedData :=
  match readIn b limits first with
  | .ok d => .ok d
  | .error _ => readIn b limits second

/-- Reading the octets `b` is an attempt in the `current` grammar, then one in the `legacy`
grammar. -/
theorem ofOctets_eq_readEither (b : Bytes) (limits : Limits) :
    ofOctets b limits = readEither b limits .current .legacy := by
  unfold ofOctets readEither readIn
  cases Cursor.start b limits with
  | error e => rfl
  | ok c =>
    simp only [bind, Except.bind]
    cases read c .current <;> rfl

theorem readEither_eq_ok {first second : Grammar} :
    readEither b limits first second = .ok d ↔
      readIn b limits first = .ok d ∨
        (∃ e, readIn b limits first = .error e) ∧ readIn b limits second = .ok d := by
  unfold readEither
  cases readIn b limits first <;> simp

theorem readEither_eq_error {first second : Grammar} {e : Error}
    (h : readEither b limits first second = .error e) : readIn b limits second = .error e := by
  unfold readEither at h
  split at h
  · cases h
  · exact h

/-- What an attempt `readIn b limits g` reads is a content of the type that the octets begin
with. -/
theorem readIn_eq_ok :
    readIn b limits g = .ok d ↔
      b.length ≤ limits.maxInput ∧ ∃ info c, ContentInfo.read (Cursor.ofBuffer b limits) g =
        .ok (info, c) ∧ c.rest = [] ∧ ofInfo limits g info = .ok d := by
  simp only [readIn, read, bind_eq_ok, Cursor.start_eq_ok, Prod.exists, Cursor.finish_eq_ok]
  constructor
  · rintro ⟨_, ⟨hlen, rfl⟩, info, c, hread, -, hrest, h⟩
    exact ⟨hlen, info, c, hread, hrest, h⟩
  · rintro ⟨hlen, info, c, hread, hrest, h⟩
    exact ⟨_, ⟨hlen, rfl⟩, info, c, hread, (), hrest, h⟩

theorem ofInfo_signedData {info : ContentInfo} (htype : info.type = Oid.signedData)
    (h : ofInfo limits g info = .ok d) :
    ∃ v, info.content = some v ∧ ofValue limits g v = .ok d := by
  obtain ⟨v, hv, ⟨-, h⟩ | ⟨htype', -⟩ | ⟨htype', -⟩⟩ := ofInfo_eq_ok.mp h
  · exact ⟨v, hv, h⟩
  · exact absurd (htype.symm.trans htype') (by decide)
  · exact absurd (htype.symm.trans htype') (by decide)

theorem ofInfo_mistyped {info : ContentInfo} (htype : info.type = Oid.mistypedSignedData)
    (h : ofInfo limits g info = .ok d) :
    ∃ v, info.content = some v ∧ ofValue limits .legacy v = .ok d := by
  obtain ⟨v, hv, ⟨htype', -⟩ | ⟨-, h⟩ | ⟨htype', -⟩⟩ := ofInfo_eq_ok.mp h
  · exact absurd (htype.symm.trans htype') (by decide)
  · exact ⟨v, hv, h⟩
  · exact absurd (htype.symm.trans htype') (by decide)

theorem exists_ofValue_of_readIn (htype : ContentInfo.leadingType? b = some Oid.signedData)
    (h : readIn b limits g = .ok d) : ∃ v, ofValue limits g v = .ok d := by
  obtain ⟨-, info, c, hread, -, h⟩ := readIn_eq_ok.mp h
  rw [ContentInfo.leadingType?_of_read hread, Option.some.injEq] at htype
  obtain ⟨v, -, h⟩ := ofInfo_signedData htype h
  exact ⟨v, h⟩

/-- Octets `b` that begin with the type of signed data are read in one grammar at most. -/
theorem not_both_readIn (htype : ContentInfo.leadingType? b = some Oid.signedData)
    (h : readIn b limits .current = .ok d) : readIn b limits .legacy ≠ .ok d' := by
  intro h'
  obtain ⟨-, info, c, hread, -, hinfo⟩ := readIn_eq_ok.mp h
  obtain ⟨-, info', c', hread', -, hinfo'⟩ := readIn_eq_ok.mp h'
  rw [ContentInfo.leadingType?_of_read hread, Option.some.injEq] at htype
  -- the legacy grammar unwraps the content as the current one does
  rw [ContentInfo.read_legacy_of_current hread] at hread'
  cases hread'
  obtain ⟨v, hv, h⟩ := ofInfo_signedData htype hinfo
  obtain ⟨v', hv', h'⟩ := ofInfo_signedData htype hinfo'
  rw [hv] at hv'
  cases hv'
  exact not_both_ofValue h h'

theorem grammar_of_mistyped (htype : ContentInfo.leadingType? b = some Oid.mistypedSignedData)
    (h : readIn b limits g = .ok d) : d.grammar = .legacy := by
  obtain ⟨-, info, c, hread, -, hinfo⟩ := readIn_eq_ok.mp h
  rw [ContentInfo.leadingType?_of_read hread, Option.some.injEq] at htype
  obtain ⟨v, -, h⟩ := ofInfo_mistyped htype hinfo
  exact grammar_of_ofValue h

/-- Where at most one attempt succeeds, their order, `first` and then `second`, does not matter. -/
theorem readEither_comm {first second : Grammar}
    (h : ∀ d d', readIn b limits first = .ok d → readIn b limits second ≠ .ok d') :
    (readEither b limits second first).toOption = (readEither b limits first second).toOption := by
  unfold readEither
  cases hfirst : readIn b limits first with
  | ok d =>
    cases hsecond : readIn b limits second with
    | ok d' => exact absurd hsecond (h d d' hfirst)
    | error e => rfl
  | error e => cases readIn b limits second <;> rfl

/-- **Grammars.** Octets `b` that begin with the type of signed data (`leadingType?`) are read in
one grammar at most, so either order of the attempts (`readEither`) accepts the same octets as the
same data, and the data says that it is in the legacy grammar exactly where the legacy attempt
succeeds. What begins with the early type is in the legacy grammar whenever it is read. Where octets
are refused, the complaint is the one of the legacy attempt. -/
theorem grammars_disjoint (b : Bytes) (limits : Limits) :
    (ContentInfo.leadingType? b = some Oid.signedData →
      (∀ d d', readIn b limits .current = .ok d → readIn b limits .legacy ≠ .ok d') ∧
      (readEither b limits .legacy .current).toOption = (ofOctets b limits).toOption ∧
      ∀ d, ofOctets b limits = .ok d →
        (d.grammar = .legacy ↔ ∃ d', readIn b limits .legacy = .ok d')) ∧
    (ContentInfo.leadingType? b = some Oid.mistypedSignedData →
      ∀ d, ofOctets b limits = .ok d → d.grammar = .legacy) ∧
    ∀ e, ofOctets b limits = .error e → readIn b limits .legacy = .error e := by
  rw [ofOctets_eq_readEither]
  refine ⟨fun htype => ?_, fun htype d h => ?_, fun e h => readEither_eq_error h⟩
  · have hone (d d') (h : readIn b limits .current = .ok d) : readIn b limits .legacy ≠ .ok d' :=
      not_both_readIn htype h
    refine ⟨hone, readEither_comm hone, fun d h => ?_⟩
    obtain h | ⟨-, h⟩ := readEither_eq_ok.mp h
    · obtain ⟨v, hv⟩ := exists_ofValue_of_readIn htype h
      rw [grammar_of_ofValue hv]
      exact iff_of_false (by decide) fun ⟨d', h'⟩ => hone d d' h h'
    · obtain ⟨v, hv⟩ := exists_ofValue_of_readIn htype h
      exact iff_of_true (grammar_of_ofValue hv) ⟨d, h⟩
  · obtain h | ⟨-, h⟩ := readEither_eq_ok.mp h
    · exact grammar_of_mistyped htype h
    · exact grammar_of_mistyped htype h

/-- Signed data of the early type, `Oid.mistypedSignedData`, with nothing in any of its sets. -/
def earlySample : Bytes :=
  ContentInfo.octets ⟨Oid.mistypedSignedData, some (Value.ofOctet Tag.sequence
    (Write.word 1 ++ Write.element Tag.set [] ++ ContentInfo.detached.octets ++
      Write.element Tag.set [] ++ Write.element Tag.set [] ++ Write.element Tag.set []))⟩

/-- `grammars_disjoint` at one form of a sample that is read in the current grammar only and at the
other one in the legacy grammar, as the early type is; no octets at all are refused. -/
theorem exists_grammars_disjoint_samples :
    ∃ d p q e, readIn currentSample .default .current = .ok d ∧
      (∀ d', readIn currentSample .default .legacy ≠ .ok d') ∧
      (readEither legacySample .default .legacy .current).toOption = some p ∧
      (p.grammar = .legacy ↔ ∃ d', readIn legacySample .default .legacy = .ok d') ∧
      ofOctets earlySample .default = .ok q ∧ q.grammar = .legacy ∧
      ofOctets [] .default = .error e ∧ readIn [] .default .legacy = .error e := by
  have hcurrent : ContentInfo.leadingType? currentSample = some Oid.signedData := by
    decide +kernel
  have hlegacy : ContentInfo.leadingType? legacySample = some Oid.signedData := by decide +kernel
  have hearly : ContentInfo.leadingType? earlySample = some Oid.mistypedSignedData := by
    decide +kernel
  obtain ⟨d, hd, -⟩ := exists_of_map_toOption (x := readIn currentSample .default .current)
    (f := fun _ => ()) (b := ()) (by decide +kernel)
  obtain ⟨p, hp, -⟩ := exists_of_map_toOption (x := ofOctets legacySample .default)
    (f := fun _ => ()) (b := ()) (by decide +kernel)
  obtain ⟨q, hq, -⟩ := exists_of_map_toOption (x := ofOctets earlySample .default)
    (f := fun _ => ()) (b := ()) (by decide +kernel)
  obtain ⟨horder, hgrammar⟩ := ((grammars_disjoint legacySample .default).1 hlegacy).2
  refine ⟨d, p, q, .malformed .tagMissing, hd,
    fun d' => ((grammars_disjoint currentSample .default).1 hcurrent).1 d d' hd, ?_, hgrammar p hp,
    hq, (grammars_disjoint earlySample .default).2.1 hearly q hq, rfl,
    (grammars_disjoint [] .default).2.2 _ rfl⟩
  rw [horder, hp]
  rfl

end SignedData

end Pkix
