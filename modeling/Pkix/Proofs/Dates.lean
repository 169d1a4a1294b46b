import Pkix.Issuer
import Pkix.Proofs.Der.Canonicity
import Pkix.Proofs.Der.Reader
import Pkix.Proofs.SignedData.Rereading
import Pkix.Proofs.Time.Content

/-!
# How signatures and revocation lists are dated

A date is written as a UTCTime up to 2049 and as a GeneralizedTime after. The year that decides is
the one on the clock of the time, while the text and its range are those of UTC, so the two types
are told apart by the point in time alone where both years lie on the same side of 2050.

* `Time.form`: the type that the clock of a time decides on; `Time.SameSide`: UTC would decide so.
* `Write.time_eq_ok`, `Write.time_eq_error`: what is written, and when nothing can be.
* `Issuer.fields_of_revoke`: a revocation list that is issued has the fields it was written with.
* `Crl.DatedBy`, `Issuer.datedBy_of_revoke`: every date of a revocation list follows the rule.
* `Attribute.dates_follow_clock`: the rule for signing times and revocation lists.
-/

namespace Pkix

open Der

/-! ## The type of a date -/

namespace Time

variable {t u : Time} {kind : TimeKind} {b : Bytes}

/-- The type that `t` is written as, by the year on its own clock. -/
def form (t : Time) : TimeKind := if t.localYear < 2050 then .utc else .generalized

/-- The clock of `t` and UTC show years on the same side of 2050. -/
def SameSide (t : Time) : Prop := t.localYear < 2050 ↔ t.utcYear < 2050

instance (t : Time) : Decidable t.SameSide := inferInstanceAs (Decidable (_ ↔ _))

/-- The clock of `t` is behind UTC at the turn to 2050. -/
def Behind (t : Time) : Prop := t.localYear < 2050 ∧ 2050 ≤ t.utcYear

instance (t : Time) : Decidable t.Behind := inferInstanceAs (Decidable (_ ∧ _))

/-- The content of `t` as one of the two types. -/
def contentAs (t : Time) : TimeKind → Except Error Bytes
  | .utc => t.utcContent
  | .generalized => t.generalizedContent

theorem form_eq_utc : t.form = .utc ↔ t.localYear < 2050 := by
  unfold form
  split <;> simp_all

theorem form_eq_generalized : t.form = .generalized ↔ ¬t.localYear < 2050 := by
  unfold form
  split <;> simp_all

theorem utcReading_congr (h : u.seconds = t.seconds) : u.utcReading = t.utcReading :=
  congrArg Reading.ofSeconds h

theorem utcYear_congr (h : u.seconds = t.seconds) : u.utcYear = t.utcYear :=
  congrArg (·.date.year) (utcReading_congr h)

theorem refusal_congr (h : u.utcYear = t.utcYear) (kind : TimeKind) :
    u.refusal kind = t.refusal kind :=
  if_congr (by rw [InCalendar, h, InCalendar]) (by rw [h]) rfl

/-- What is written depends on the type and the point in time, `t.seconds`. -/
theorem contentAs_congr (h : u.seconds = t.seconds) (kind : TimeKind) :
    u.contentAs kind = t.contentAs kind := by
  have hreading := utcReading_congr h
  have hyear := utcYear_congr h
  cases kind
  · simp only [contentAs, utcContent_eq, refusal_congr hyear, hreading, hyear]
  · simp only [contentAs, generalizedContent_eq, refusal_congr hyear, hreading, hyear]

theorem ofContent_contentAs (h : t.contentAs kind = .ok b) :
    ofContent kind b = .ok t.wholeSecond := by
  cases kind with
  | utc => exact ofContent_utcContent h
  | generalized => exact ofContent_generalizedContent h

theorem length_contentAs_le (h : t.contentAs kind = .ok b) : b.length ≤ 15 := by
  cases kind with
  | utc =>
    rw [← (utcContent_eq_ok.mp h).2, List.length_append, Decimal.length_octets, length_restContent]
    decide
  | generalized => exact Nat.le_of_eq (length_generalizedContent h)

/-- `t` has no text where its clock decides on two digits and UTC is past their years (`Behind`). -/
theorem contentAs_form_eq_error (h : t.Behind) :
    t.contentAs t.form = .error (t.refusal .utc) := by
  rw [form_eq_utc.mpr h.1, contentAs, utcContent_eq]
  exact if_neg fun hyear => absurd hyear.2 (Int.not_lt.mpr h.2)

/-- `t` has one otherwise, in the years that can be written. -/
theorem exists_contentAs_form (hfirst : 1950 ≤ t.utcYear) (hlast : t.utcYear ≤ 9999)
    (h : ¬t.Behind) : ∃ b, t.contentAs t.form = .ok b := by
  by_cases hlocal : t.localYear < 2050
  · rw [form_eq_utc.mpr hlocal, contentAs, utcContent_eq]
    exact ⟨_, if_pos ⟨hfirst, Int.not_le.mp fun hutc => h ⟨hlocal, hutc⟩⟩⟩
  · rw [form_eq_generalized.mpr hlocal, contentAs, generalizedContent_eq]
    exact ⟨_, if_pos ⟨by omega, hlast⟩⟩

/-- The years of dates, 1950 to 9999, are years of the calendar (`InCalendar`). -/
theorem inCalendar_of_date (hfirst : 1950 ≤ t.utcYear) (hlast : t.utcYear ≤ 9999) :
    t.InCalendar :=
  ⟨Int.le_trans (by decide) hfirst, hlast⟩

end Time

/-! ## Writing a date -/

namespace EncodedTime

theorem short_tag (kind : TimeKind) : Value.Short (tag kind) := by
  cases kind <;> decide

/-- The element of a type of date, `kind`. -/
def element (kind : TimeKind) (content : Bytes) : Value := Value.ofOctet (tag kind) content

theorem isTag_tag (kind : TimeKind) : isTag (tag kind) = true := by
  cases kind <;> decide

theorem time_element (kind : TimeKind) (content : Bytes) :
    (element kind content).time = Time.ofContent kind content := by
  cases kind <;> rfl

theorem is_element (kind : TimeKind) (content : Bytes) (x : UInt8) :
    (element kind content).is x = (Tag.ofOctet (tag kind)).isOctet x := rfl

theorem is_utcTime_element (kind : TimeKind) (content : Bytes) :
    (element kind content).is Tag.utcTime = true ↔ kind = .utc := by
  rw [is_element]
  cases kind <;> decide

theorem is_generalizedTime_element (kind : TimeKind) (content : Bytes) :
    (element kind content).is Tag.generalizedTime = true ↔ kind = .generalized := by
  rw [is_element]
  cases kind <;> decide

/-- The `content` of a date is short, so the element with it is read alone. -/
theorem decode_element {t : Time} {kind : TimeKind} {content : Bytes}
    (h : t.contentAs kind = .ok content) :
    decode (Write.element (tag kind) content) = .ok (element kind content) := by
  have hlen := Time.length_contentAs_le h
  have hlength : (Length.octets content.length).length = 1 := by
    rw [Length.octets, if_pos (by omega)]
    rfl
  have hshort : (Write.element (tag kind) content).length ≤ Limits.default.maxInput := by
    rw [Write.element, List.length_cons, List.length_append, hlength]
    exact Nat.le_trans (show _ ≤ 17 by omega) (by decide)
  exact Der.decode_element (short_tag kind) hshort

/-- A date that was written is read as `⟨kind, t.seconds⟩`, the whole second in the type that it was
written as. -/
theorem of_ofValue?_element {t : Time} {kind : TimeKind} {content : Bytes} {e : EncodedTime}
    (hcontent : t.contentAs kind = .ok content) (h : ofValue? (element kind content) = some e) :
    e = ⟨kind, t.seconds⟩ := by
  have hread : ofContent? kind content = some e := by
    cases kind with
    | utc => exact h
    | generalized => exact h
  unfold ofContent? at hread
  split at hread
  · cases hread
  · rw [Time.ofContent_contentAs hcontent] at hread
    obtain ⟨-, he⟩ := Option.ite_none_right_eq_some.mp hread
    exact (Option.some.inj he).symm

end EncodedTime

namespace Der.Write

variable {t : Time} {b : Bytes} {e : Error}

theorem time_eq (t : Time) :
    time t = element (EncodedTime.tag t.form) <$> t.contentAs t.form := by
  unfold time Time.form
  split <;> rfl

theorem time_eq_ok :
    time t = .ok b ↔ ∃ content, t.contentAs t.form = .ok content ∧
      b = element (EncodedTime.tag t.form) content := by
  rw [time_eq]
  cases t.contentAs t.form <;> simp [Functor.map, Except.map, eq_comm]

theorem time_eq_error : time t = .error e ↔ t.contentAs t.form = .error e := by
  rw [time_eq]
  cases t.contentAs t.form <;> simp [Functor.map, Except.map]

end Der.Write

/-! ## Signing times -/

namespace Attribute

/-- The attribute with a date of a type, `kind`. -/
def dated (kind : TimeKind) (content : Bytes) : Attribute :=
  ⟨Oid.signingTime, [EncodedTime.element kind content]⟩

theorem dated_inj {kind kind' : TimeKind} {content content' : Bytes}
    (h : dated kind content = dated kind' content') : kind = kind' := by
  have hvalue : EncodedTime.element kind content = EncodedTime.element kind' content' := by
    simpa [dated] using h
  have hutc := EncodedTime.is_utcTime_element kind content
  rw [hvalue, EncodedTime.is_utcTime_element] at hutc
  cases kind <;> cases kind' <;> simp_all

/-- A signing time is `t` in the type that its clock decides on, `t.form`. -/
theorem signingTime_eq (t : Time) : signingTime t = dated t.form <$> t.contentAs t.form := by
  rw [signingTime]
  cases hcontent : t.contentAs t.form with
  | error e =>
    rw [Write.time_eq_error.mpr hcontent]
    rfl
  | ok content =>
    rw [Write.time_eq_ok.mpr ⟨content, hcontent, rfl⟩]
    simp only [bind, Except.bind, EncodedTime.decode_element hcontent]
    rfl

end Attribute

namespace AttributeSet

variable {s : AttributeSet}

/-- A signing time that was `dated` is read back as the whole second. -/
theorem signingTime_of_mem {t : Time} {kind : TimeKind} {content : Bytes}
    (hcontent : t.contentAs kind = .ok content)
    (h : Attribute.dated kind content ∈ s.attributes) :
    s.signingTime = .ok (some t.wholeSecond) := by
  have hread : (EncodedTime.element kind content).time = .ok t.wholeSecond := by
    rw [EncodedTime.time_element, Time.ofContent_contentAs hcontent]
  exact single_of_get? (get?_of_mem h) hread

end AttributeSet

/-! ## Revocation lists -/

/-- `t` in the type that its clock decides on. -/
def Time.date (t : Time) : EncodedTime := ⟨t.form, t.seconds⟩

/-- Every date of `c` is in the type that its clock decides on: `this` is the date of the list and
of its entries, `next` that of the next list. -/
structure Crl.DatedBy (c : Crl) (this : Time) (next : Option Time) : Prop where
  thisUpdate : c.layout.body.thisUpdate = this.date
  nextUpdate : c.layout.body.nextUpdate = next.map Time.date
  revoked : ∀ e ∈ c.entries, e.date = this.date

namespace Issuer

variable {i : Issuer} {revoked : List (Int × Reason)} {this : Time} {next : Option Time} {c : Crl}
  {updated b : Bytes}

/-- The extension that gives a `reason`. -/
def reasonExtension (reason : Reason) : Extension :=
  ⟨Oid.reasonCode, false, Write.enumerated reason.code⟩

/-- What follows the date of an entry: no `reason` is given where it is unspecified. -/
def reasonOctets (reason : Reason) : Bytes :=
  if reason = .unspecified then []
  else Write.element Tag.sequence (reasonExtension reason).octets

/-- The entry for a revoked certificate: serial number and reason `x`, and the date `updated`. -/
def entryValue (updated : Bytes) (x : Int × Reason) : Value :=
  Value.ofOctet Tag.sequence (Write.integer x.1 ++ (updated ++ reasonOctets x.2))

/-- The entries of a revocation list, one for each of `revoked`. -/
def entryValues (updated : Bytes) (revoked : List (Int × Reason)) : List Value :=
  revoked.map (entryValue updated)

theorem entryOctets_eq (updated : Bytes) (x : Int × Reason) :
    entryOctets updated x.1 x.2 = .ok (entryValue updated x).octets := by
  have hreason : ∀ reason : Reason, reason ≠ .unspecified →
      (TypedExtension.reasonCode reason).extension = .ok (reasonExtension reason) := by
    rintro ⟨⟩ h <;> first | rfl | exact absurd rfl h
  rw [entryValue, Value.octets_ofOctet (by decide), reasonOctets, entryOctets]
  split
  · simp only [bind, Except.bind, pure, Except.pure, List.append_assoc]
  · rename_i h
    simp only [hreason _ h, bind, Except.bind, pure, Except.pure, List.append_assoc]

/-- The entries are a SEQUENCE of `entryValues`, unless there are none. -/
def entriesPart (updated : Bytes) (revoked : List (Int × Reason)) : Bytes :=
  if revoked = [] then []
  else Write.element Tag.sequence (Write.values (entryValues updated revoked))

theorem entriesOctets_eq (updated : Bytes) (revoked : List (Int × Reason)) :
    entriesOctets updated revoked = .ok (entriesPart updated revoked) := by
  have hall (f : Int × Reason → Except Error Bytes)
      (hf : ∀ x, f x = entryOctets updated x.1 x.2) :
      revoked.mapM f = .ok (revoked.map fun x => (entryValue updated x).octets) :=
    (mapM_eq_ok_of_total (P := fun _ => True) fun x _ b => by
      rw [hf, entryOctets_eq, Except.ok.injEq, true_and]).mpr ⟨fun _ _ => trivial, rfl⟩
  rw [entriesOctets, hall _ fun _ => rfl]
  simp only [bind, Except.bind, pure, Except.pure, List.isEmpty_iff, List.map_eq_nil_iff,
    Write.values_eq_flatten, entriesPart, entryValues, List.map_map, Function.comp_def]

open Reader in
/-- The fields of an entry `e` that is read are those that were written for `x`. -/
theorem fields_of_entry {t : Time} {content : Bytes} {x : Int × Reason} {e : Crl.Entry}
    (hcontent : t.contentAs t.form = .ok content)
    (hframed : (entryValue (Write.element (EncodedTime.tag t.form) content) x).Framed)
    (h : Crl.Entry.ofValue? (entryValue (Write.element (EncodedTime.tag t.form) content) x) =
      some e) :
    e.serial = x.1 ∧ e.date = t.date ∧ (reasonOctets x.2).length < UInt32.size ∧
      Reader.optional (· == Tag.sequence) Parts.readExtensions (reasonOctets x.2) =
        some (e.extensions, []) := by
  rw [Crl.Entry.ofValue?, sequence_eq_some] at h
  simp only [bind_eq_some, pure_eq_some, Value.content_ofOctet, entryValue] at h
  obtain ⟨hserial, hrest⟩ := Write.length_lt_of_element_append hframed
  obtain ⟨hdateLen, hreason⟩ := Write.length_lt_of_element_append hrest
  obtain ⟨n, left, hn, date, left', hdate, extensions, left'', hextensions, rfl, rfl⟩ := h.2
  obtain ⟨hread, rfl⟩ := of_next_element (by decide) hserial hn
  obtain ⟨hinstant, rfl⟩ := of_next_element (EncodedTime.short_tag _) hdateLen hdate
  refine ⟨?_, EncodedTime.of_ofValue?_element hcontent hinstant, hreason, hextensions⟩
  unfold Parts.readSerial at hread
  obtain ⟨-, hread⟩ := Option.ite_none_right_eq_some.mp hread
  have hvalue := Value.integer_eq_ok.mp (toOption_eq_some.mp hread)
  exact (BigEndian.ofInt_inj (congrArg Value.content hvalue)).symm

/-- The date of the next list, where there is one; nothing for `none`. -/
def nextOctets : Option Time → Except Error Bytes
  | some t => Write.time t
  | none => .ok []

/-- The fields of a revocation list of `i`, which are signed. -/
def fields (i : Issuer) (updated after entries : Bytes) : Bytes :=
  Write.word 1 ++ (i.key.signatureAlgorithm.algorithm.octets ++ (i.name.octets ++
    (updated ++ (after ++ entries))))

theorem revoke_eq (i : Issuer) (revoked : List (Int × Reason)) (this : Time)
    (next : Option Time) :
    i.revoke revoked this next = (do
      let updated ← Write.time this
      let after ← nextOctets next
      let entries ← entriesOctets updated revoked
      let body := Write.element Tag.sequence (i.fields updated after entries)
      let signature ← i.key.sign i.key.signatureAlgorithm.digest body
      Crl.ofOctets (Signed.octets ⟨body, i.key.signatureAlgorithm.algorithm, signature⟩)) := by
  simp only [fields, ← List.append_assoc]
  cases next <;> rfl

open Reader in
/-- The body of a revocation list that is read, `l.body`, is the one that was signed. -/
theorem body_of_signed {fields signature : Bytes} {algorithm : Algorithm} {l : Crl.Layout}
    (h : Crl.Layout.ofOctets?
      (Signed.octets ⟨Write.element Tag.sequence fields, algorithm, signature⟩) = some l) :
    Crl.Body.ofValue? (Value.ofOctet Tag.sequence fields) = some l.body ∧
      fields.length < UInt32.size := by
  obtain ⟨v, hframed, hoctets, hread⟩ := exists_of_whole_next h
  obtain ⟨his, hread⟩ := sequence_eq_some.mp hread
  rw [Value.is_iff.mp his, Value.octets_ofOctet (by decide), Signed.octets] at hoctets
  have hcontent := Write.content_of_element hoctets
  rw [List.append_assoc] at hcontent
  rw [Value.Framed, ← hcontent] at hframed
  have hlen := (Write.length_lt_of_element_append hframed).1
  rw [← hcontent] at hread
  simp only [bind_eq_some, pure_eq_some] at hread
  obtain ⟨body, left, hbody, algorithm', left', -, signature', left'', -, rfl, -⟩ := hread
  exact ⟨(of_next_element (by decide) hlen hbody).1, hlen⟩

/-- The entries of a revocation list do not begin as a date does (`isTag`). -/
theorem isTag_head?_entriesPart : ∀ x ∈ (entriesPart updated revoked).head?,
    EncodedTime.isTag x = false := by
  intro x hx
  unfold entriesPart at hx
  split at hx
  · cases hx
  · cases hx
    decide

open Reader in
/-- The date of the next list, `next`, is read where it was written. -/
theorem nextUpdate_of_optional {after left : Bytes} {o : Option EncodedTime}
    (hafter : nextOctets next = .ok after)
    (hlen : (after ++ entriesPart updated revoked).length < UInt32.size)
    (h : Reader.optional EncodedTime.isTag EncodedTime.ofValue?
      (after ++ entriesPart updated revoked) = some (o, left)) :
    o = next.map Time.date ∧ left = entriesPart updated revoked := by
  cases next with
  | none =>
    cases hafter
    exact of_optional_other isTag_head?_entriesPart h
  | some t =>
    obtain ⟨content, hcontent, rfl⟩ := Write.time_eq_ok.mp hafter
    obtain ⟨⟨x, rfl, hread⟩, rfl⟩ := of_optional_element (EncodedTime.short_tag _)
      (EncodedTime.isTag_tag _) (Write.length_lt_of_element_append hlen).1 h
    exact ⟨congrArg some (EncodedTime.of_ofValue?_element hcontent hread), rfl⟩

open Reader in
/-- The entries of `revoked` are read from those that were written. -/
theorem mapM_of_optional {left : Bytes} {o : Option (List Crl.Entry)}
    (hlen : (entriesPart updated revoked).length < UInt32.size)
    (h : Reader.optional (· == Tag.sequence) (Reader.listOf Crl.Entry.ofValue?)
      (entriesPart updated revoked) = some (o, left)) :
    (entryValues updated revoked).mapM Crl.Entry.ofValue? = some (o.getD []) ∧
      ∀ v ∈ entryValues updated revoked, v.Framed := by
  unfold entriesPart at h hlen
  split at h
  · obtain ⟨rfl, -⟩ := of_optional_other (by simp) h
    rename_i hnone
    rw [hnone]
    exact ⟨rfl, fun v hv => nomatch hv⟩
  · rename_i hsome
    rw [if_neg hsome, ← List.append_nil (Write.element _ _)] at hlen
    rw [← List.append_nil (Write.element _ _)] at h
    have hvalues := (Write.length_lt_of_element_append hlen).1
    obtain ⟨⟨es, rfl, hread⟩, -⟩ := of_optional_element (by decide) (by decide) hvalues h
    have hframed := Write.framed_of_values hvalues
    exact ⟨mapM_of_listOf hframed hread, hframed⟩

open Reader in
/-- The fields of the body of a revocation list that is read are those that were written by
`i.fields`. -/
theorem fields_of_body {content after : Bytes} {body : Crl.Body}
    (hcontent : this.contentAs this.form = .ok content) (hafter : nextOctets next = .ok after)
    (hupdated : updated = Write.element (EncodedTime.tag this.form) content)
    (hlen : (i.fields updated after (entriesPart updated revoked)).length < UInt32.size)
    (h : Crl.Body.ofValue? (Value.ofOctet Tag.sequence
      (i.fields updated after (entriesPart updated revoked))) = some body) :
    body.thisUpdate = this.date ∧ body.nextUpdate = next.map Time.date ∧
      (entryValues updated revoked).mapM Crl.Entry.ofValue? = some (body.revoked.getD []) ∧
      ∀ v ∈ entryValues updated revoked, v.Framed := by
  rw [Crl.Body.ofValue?, sequence_eq_some] at h
  simp only [bind_eq_some, pure_eq_some, Value.content_ofOctet, fields] at h
  obtain ⟨-, version, b₁, hversion, algorithm, b₂, halgorithm, issuer, b₃, hissuer, thisUpdate, b₄,
    hthis, nextUpdate, b₅, hnext, revoked', b₆, hrevoked, extensions, b₇, -, rfl, -⟩ := h
  -- version, algorithm and name are passed over
  simp only [fields, Write.word, Write.integer, Algorithm.octets, EncodedName.octets]
    at hlen hversion
  obtain ⟨hversionLen, hlen⟩ := Write.length_lt_of_element_append hlen
  obtain ⟨halgorithmLen, hlen⟩ := Write.length_lt_of_element_append hlen
  obtain ⟨hissuerLen, hlen⟩ := Write.length_lt_of_element_append hlen
  rw [List.length_append] at hlen
  obtain ⟨-, rfl⟩ := of_next_element (by decide) hversionLen hversion
  obtain ⟨-, rfl⟩ := of_next_element (by decide) halgorithmLen halgorithm
  obtain ⟨-, rfl⟩ := of_next_element (by decide) hissuerLen hissuer
  have hthisLen : content.length < UInt32.size :=
    Nat.lt_of_le_of_lt (Time.length_contentAs_le hcontent) (by decide)
  nth_rewrite 1 [hupdated] at hthis
  obtain ⟨hdate, rfl⟩ := of_next_element (EncodedTime.short_tag _) hthisLen hthis
  obtain ⟨hnextDate, rfl⟩ := nextUpdate_of_optional hafter (by omega) hnext
  rw [List.length_append] at hlen
  exact ⟨EncodedTime.of_ofValue?_element hcontent hdate, hnextDate,
    mapM_of_optional (by omega) hrevoked⟩

/-- A revocation list `c` that is issued has the fields that were written. -/
theorem fields_of_revoke (h : i.revoke revoked this next = .ok c) :
    ∃ content after signature,
      this.contentAs this.form = .ok content ∧ nextOctets next = .ok after ∧
      (let updated := Write.element (EncodedTime.tag this.form) content
       let fields := i.fields updated after (entriesPart updated revoked)
       i.key.sign i.key.signatureAlgorithm.digest (Write.element Tag.sequence fields) =
          .ok signature ∧
        c.octets = Signed.octets ⟨Write.element Tag.sequence fields,
          i.key.signatureAlgorithm.algorithm, signature⟩ ∧
        fields.length < UInt32.size ∧
        Crl.Body.ofValue? (Value.ofOctet Tag.sequence fields) = some c.layout.body) := by
  simp only [revoke_eq, bind_eq_ok, Crl.ofOctets_eq_ok, entriesOctets_eq, Except.ok.injEq,
    exists_eq_left'] at h
  obtain ⟨updated, hupdated, after, hafter, signature, hsignature, hc⟩ := h
  obtain ⟨content, hcontent, rfl⟩ := Write.time_eq_ok.mp hupdated
  have hlayout := c.layout_eq
  rw [← hc] at hlayout
  obtain ⟨hbody, hlen⟩ := body_of_signed hlayout
  exact ⟨content, after, signature, hcontent, hafter, hsignature, hc.symm, hlen, hbody⟩

/-- **Dates of a revocation list.** Those of `c` are `this` and `next`, which it was issued with,
each in the type that its clock decides on. -/
theorem datedBy_of_revoke (h : i.revoke revoked this next = .ok c) : c.DatedBy this next := by
  obtain ⟨content, after, -, hcontent, hafter, -, -, hlen, hbody⟩ := fields_of_revoke h
  obtain ⟨hthis, hnext, hrevoked, hframed⟩ := fields_of_body hcontent hafter rfl hlen hbody
  refine ⟨hthis, hnext, fun e he => ?_⟩
  obtain ⟨v, hv, hread⟩ := Reader.exists_of_mapM hrevoked e he
  obtain ⟨x, -, rfl⟩ := List.mem_map.mp hv
  exact (fields_of_entry hcontent (hframed _ hv) hread).2.1

/-- A revocation list whose date `this` cannot be written is not issued. -/
theorem revoke_eq_error {e : Error} (h : this.contentAs this.form = .error e) :
    i.revoke revoked this next = .error e := by
  rw [revoke_eq, Write.time_eq_error.mpr h]
  rfl

/-- Nor is one whose next date, `t`, cannot be written. -/
theorem exists_revoke_eq_error {t : Time} {e : Error} (h : t.contentAs t.form = .error e) :
    ∃ e', i.revoke revoked this (some t) = .error e' := by
  have hnext : nextOctets (some t) = .error e := Write.time_eq_error.mpr h
  rw [revoke_eq, hnext]
  cases Write.time this with
  | error e' => exact ⟨e', rfl⟩
  | ok updated => exact ⟨e, rfl⟩

end Issuer

/-! ## The rule -/

namespace Attribute

variable {t u : Time}

/-- `t` makes a signing time unless its clock is `Behind`. -/
theorem exists_signingTime (hfirst : 1950 ≤ t.utcYear) (hlast : t.utcYear ≤ 9999)
    (h : ¬t.Behind) : ∃ content, t.contentAs t.form = .ok content ∧
      signingTime t = .ok (dated t.form content) := by
  obtain ⟨content, hcontent⟩ := Time.exists_contentAs_form hfirst hlast h
  exact ⟨content, hcontent, by rw [signingTime_eq, hcontent]; rfl⟩

theorem signingTime_of_behind (h : t.Behind) : signingTime t = .error (t.refusal .utc) := by
  rw [signingTime_eq, Time.contentAs_form_eq_error h]
  rfl

/-- A signing time tells the type that it was written as, `t.form`. -/
theorem form_eq_of_signingTime (hfirst : 1950 ≤ t.utcYear) (hlast : t.utcYear ≤ 9999)
    (hyear : u.utcYear = t.utcYear) (h : signingTime u = signingTime t) : u.form = t.form := by
  by_cases ht : t.Behind
  · by_cases hu : u.Behind
    · rw [Time.form_eq_utc.mpr ht.1, Time.form_eq_utc.mpr hu.1]
    · obtain ⟨content, -, hmade⟩ := exists_signingTime (hyear ▸ hfirst) (hyear ▸ hlast) hu
      rw [hmade, signingTime_of_behind ht] at h
      cases h
  · obtain ⟨content, -, hmade⟩ := exists_signingTime hfirst hlast ht
    by_cases hu : u.Behind
    · rw [hmade, signingTime_of_behind hu] at h
      cases h
    · obtain ⟨content', -, hmade'⟩ := exists_signingTime (hyear ▸ hfirst) (hyear ▸ hlast) hu
      rw [hmade, hmade', Except.ok.injEq] at h
      exact dated_inj h

/-- **How dates are chosen.** A time `t` with a year that can be written makes a signing time of the
type that the point in time asks for exactly where its clock and UTC show years on the same side of
2050 (`SameSide`). A clock that is `Behind` UTC at the turn makes none, one that is ahead a
GeneralizedTime too early. A signing time that is made is read back as `t.wholeSecond`, and
revocation lists have their dates by the same rule (`DatedBy`). -/
theorem dates_follow_clock (hfirst : 1950 ≤ t.utcYear) (hlast : t.utcYear ≤ 9999) :
    (t.SameSide ↔ ∃ v, signingTime t = .ok ⟨Oid.signingTime, [v]⟩ ∧
      (v.is Tag.utcTime = true ↔ t.utcYear ≤ 2049) ∧
      (v.is Tag.generalizedTime = true ↔ 2049 < t.utcYear)) ∧
    (∀ u : Time, u.seconds = t.seconds → (signingTime u = signingTime t ↔ u.form = t.form)) ∧
    (t.Behind → signingTime t = .error (.encoding (.year t.utcYear .utc))) ∧
    (¬t.Behind → ∃ v, signingTime t = .ok ⟨Oid.signingTime, [v]⟩ ∧
      (v.is Tag.utcTime = true ↔ t.localYear ≤ 2049) ∧
      (v.is Tag.generalizedTime = true ↔ 2049 < t.localYear) ∧
      (∃ s, AttributeSet.new [⟨Oid.signingTime, [v]⟩] = .ok s) ∧
      ∀ s : AttributeSet, ⟨Oid.signingTime, [v]⟩ ∈ s.attributes →
        s.signingTime = .ok (some t.wholeSecond)) ∧
    ∀ (i : Issuer) revoked this next,
      (∀ c, i.revoke revoked this next = .ok c → c.DatedBy this next) ∧
      (this.Behind → i.revoke revoked this next = .error (this.refusal .utc)) ∧
      ∀ n ∈ next, n.Behind → ∃ e, i.revoke revoked this next = .error e := by
  have hform : (t.form = .utc ↔ t.localYear ≤ 2049) ∧
      (t.form = .generalized ↔ 2049 < t.localYear) := by
    rw [Time.form_eq_utc, Time.form_eq_generalized]
    omega
  refine ⟨⟨fun hside => ?_, ?_⟩, fun u hseconds => ⟨?_, fun h => ?_⟩, fun h => ?_, fun h => ?_,
    fun i revoked this next => ⟨fun c hc => ?_, fun h => ?_, ?_⟩⟩
  · have hbehind : ¬t.Behind := fun h => absurd (hside.mp h.1) (Int.not_lt.mpr h.2)
    obtain ⟨content, -, hmade⟩ := exists_signingTime hfirst hlast hbehind
    unfold Time.SameSide at hside
    refine ⟨_, hmade, ?_, ?_⟩
    · rw [EncodedTime.is_utcTime_element, hform.1]
      omega
    · rw [EncodedTime.is_generalizedTime_element, hform.2]
      omega
  · rintro ⟨v, hv, hutc, -⟩
    have hbehind : ¬t.Behind := fun h => by
      rw [signingTime_of_behind h] at hv
      cases hv
    obtain ⟨content, -, hmade⟩ := exists_signingTime hfirst hlast hbehind
    rw [hmade] at hv
    cases hv
    rw [EncodedTime.is_utcTime_element, hform.1] at hutc
    unfold Time.SameSide
    omega
  · exact form_eq_of_signingTime hfirst hlast (Time.utcYear_congr hseconds)
  · rw [signingTime_eq, signingTime_eq, h, Time.contentAs_congr hseconds]
  · rw [signingTime_of_behind h,
      Time.refusal_of_inCalendar (Time.inCalendar_of_date hfirst hlast)]
  · obtain ⟨content, hcontent, hmade⟩ := exists_signingTime hfirst hlast h
    refine ⟨_, hmade, ?_, ?_, ⟨⟨_, _, ?_⟩, AttributeSet.new_eq_ok.mpr ⟨rfl, rfl⟩⟩,
      fun s hs => AttributeSet.signingTime_of_mem hcontent hs⟩
    · rw [EncodedTime.is_utcTime_element, hform.1]
    · rw [EncodedTime.is_generalizedTime_element, hform.2]
    · rfl
  · exact Issuer.datedBy_of_revoke hc
  · exact Issuer.revoke_eq_error (Time.contentAs_form_eq_error h)
  · rintro n hn h
    cases hn
    exact Issuer.exists_revoke_eq_error (Time.contentAs_form_eq_error h)

/-- `signingTime` an hour behind UTC at the first second of 2050 has no answer, and an hour ahead at
the last second of 2049 makes a GeneralizedTime. -/
theorem signingTime_at_turn :
    Time.utcYear ⟨2524608000, 0, -3600⟩ = 2050 ∧
      signingTime ⟨2524608000, 0, -3600⟩ = .error (.encoding (.year 2050 .utc)) ∧
      Time.utcYear ⟨2524607999, 0, 3600⟩ = 2049 ∧
      signingTime ⟨2524607999, 0, 3600⟩ =
        .ok (dated .generalized (Bytes.ofString "20491231235959Z")) := by
  refine ⟨by decide, signingTime_of_behind (by decide), by decide, ?_⟩
  rw [signingTime_eq]
  decide

/-- The factors of `sampleIssuer`'s modulus, which has 512 bits. -/
def sampleFactors : Nat × Nat :=
  (0xde7d6b377936d536243d35702c1eea1f265974a7cc966f46c6aa7d550101b811,
    0xf711b7573b16494331a59c4ad1ebd086c40f36094fcc9a5c334e51aff848a957)

/-- An issuer without a name, and with an RSA key made of `sampleFactors`. -/
def sampleIssuer : Issuer where
  name := ⟨[]⟩
  key := .rsa {
    publicKey.modulus := sampleFactors.1 * sampleFactors.2
    publicKey.exponent := 3
    publicKey.valid := by decide +kernel
    exponent := (2 * (sampleFactors.1 - 1) * (sampleFactors.2 - 1) + 1) / 3
    p := sampleFactors.1
    q := sampleFactors.2
    valid := by decide +kernel }

/-- `dates_follow_clock` at a revocation list with a date on either side of the turn. -/
theorem exists_dates_at_turn :
    ∃ c, sampleIssuer.revoke [(7, .keyCompromise)] ⟨2524607999, 5, 0⟩
        (some ⟨2524694400, 0, 3600⟩) = .ok c ∧
      c.layout.body.thisUpdate = ⟨.utc, 2524607999⟩ ∧
      c.layout.body.nextUpdate = some ⟨.generalized, 2524694400⟩ ∧
      c.count = 1 ∧ (∀ e ∈ c.entries, e.date = ⟨.utc, 2524607999⟩) ∧
      ∃ v, signingTime ⟨2524607999, 5, 0⟩ = .ok ⟨Oid.signingTime, [v]⟩ ∧
        v.is Tag.utcTime = true := by
  obtain ⟨c, hc, hcount⟩ := exists_of_map_toOption
    (x := sampleIssuer.revoke [(7, .keyCompromise)] ⟨2524607999, 5, 0⟩
      (some ⟨2524694400, 0, 3600⟩)) (f := Crl.count) (b := 1) (by decide +kernel)
  obtain ⟨hside, -, -, -, hlists⟩ := dates_follow_clock (t := ⟨2524607999, 5, 0⟩)
    (by decide) (by decide)
  obtain ⟨hthis, hnext, hrevoked⟩ := (hlists sampleIssuer _ _ _).1 c hc
  obtain ⟨v, hv, hutc, -⟩ := hside.mp (by decide)
  exact ⟨c, hc, hthis, hnext, hcount, hrevoked, v, hv, hutc.mpr (by decide)⟩

end Attribute

end Pkix
