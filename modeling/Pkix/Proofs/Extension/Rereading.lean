import Pkix.Proofs.Extension.Content
import Pkix.Proofs.Extension.Session

/-!
# Extensions survive writing and reading

However an extension came about and whatever calls have been made on it, what is written for it is
read as an extension that says the same, and what is written for that one is the same again.

* `TypedExtension.Made`: an extension made for one of the kinds, or read.
* `TypedExtension.regular_after`: a session does not lead out of the kinds.
* `TypedExtension.ofExtension_extension`: one extension that is written and read back.
* `TypedExtension.survives_sessions`: the same after any session.
-/

namespace Pkix

open Der Content

namespace TypedExtension

/-- An extension that was made for one of the kinds, or `read` from octets. -/
inductive Made : TypedExtension → Prop
  | keyUsage (bits : List Bool) : Made (keyUsage bits)
  | subjectKeyIdentifier (keyId : Bytes) : Made (subjectKeyIdentifier keyId)
  | extendedKeyUsage (critical : Bool) (purposes : List Oid) :
    Made (extendedKeyUsage critical purposes)
  | privateKeyUsage (notBefore notAfter : Option Time) : Made (privateKeyUsage notBefore notAfter)
  | reasonCode (reason : Reason) : Made (reasonCode reason)
  | invalidityDate (date : Time) : Made (invalidityDate date)
  | deltaCrlIndicator (base : Int) : Made (deltaCrlIndicator base)
  | ocspNoCheck : Made ocspNoCheck
  | read {x : Extension} {e : TypedExtension} (h : ofExtension x = .ok e) : Made e

variable {e e' : TypedExtension} {x : Extension}

theorem ofExtension_eq_ok :
    ofExtension x = .ok e ↔ decode x.id x.value = .ok e.content ∧ e.critical = x.critical := by
  obtain ⟨critical, content⟩ := e
  simp only [ofExtension, bind_eq_ok, pure_eq_ok, mk.injEq]
  constructor
  · rintro ⟨_, hread, rfl, rfl⟩
    exact ⟨hread, rfl⟩
  · rintro ⟨hread, rfl⟩
    exact ⟨content, hread, rfl, rfl⟩

theorem extension_eq_ok :
    e.extension = .ok x ↔ e.content.oid = x.id ∧ e.critical = x.critical ∧
      e.content.value = .ok x.value := by
  obtain ⟨id, critical, value⟩ := x
  simp only [extension, bind_eq_ok, pure_eq_ok, Extension.mk.injEq]
  constructor
  · rintro ⟨_, hvalue, rfl, rfl, rfl⟩
    exact ⟨rfl, rfl, hvalue⟩
  · rintro ⟨rfl, rfl, hvalue⟩
    exact ⟨value, hvalue, rfl, rfl, rfl⟩

theorem Made.regular (h : e.Made) : e.content.Regular := by
  cases h with
  | read h => exact (reads_of_decode (ofExtension_eq_ok.mp h).1).regular.2
  | _ => exact nofun

/-- A session of `calls` changes neither the identifier nor the names of the attributes, so it does
not lead out of the kinds (`Regular`). -/
theorem regular_after (h : e.content.Regular) (calls : List Call) :
    (e.after calls).content.Regular := by
  have hkept := e.kept_after calls
  rw [Regular, hkept.setName?, hkept.oid]
  exact h

/-- What is written for `e`, `x`, is read as an extension `e'` that says the same, and what is
written for `e'` is `x` again. -/
theorem ofExtension_extension (hregular : e.content.Regular) (h : e.extension = .ok x)
    (hlen : x.value.length ≤ Limits.default.maxInput)
    (hcount : ∀ purposes, e.content = .extendedKeyUsage (some purposes) →
      purposes.length ≤ Limits.default.maxElements) :
    ∃ e', ofExtension x = .ok e' ∧ e'.critical = e.critical ∧ e.content.Agrees e'.content ∧
      e'.extension = .ok x := by
  obtain ⟨hid, hcritical, hvalue⟩ := extension_eq_ok.mp h
  have hread := decode_value hregular hvalue hlen hcount
  have hagrees := agrees_canonical e.content
  refine ⟨⟨e.critical, e.content.canonical⟩, ofExtension_eq_ok.mpr ⟨hid ▸ hread, hcritical⟩, rfl,
    hagrees, extension_eq_ok.mpr ⟨hagrees.oid.trans hid, hcritical, ?_⟩⟩
  rw [value_canonical, hvalue]

/-- **Extensions survive writing and reading in every state of a session.** Where `start` was made
or read (`Made`) and then called upon in any way, what is written for it, `x`, is read as an
extension `e'` of the same kind that is as critical and says the same (`Agrees`), and what is
written for `e'` is the same, octet by octet. -/
theorem survives_sessions {start : TypedExtension} (hmade : start.Made) (calls : List Call)
    (h : (start.after calls).extension = .ok x) (hlen : x.value.length ≤ Limits.default.maxInput)
    (hcount : ∀ purposes, (start.after calls).content = .extendedKeyUsage (some purposes) →
      purposes.length ≤ Limits.default.maxElements) :
    ∃ e', ofExtension x = .ok e' ∧ e'.critical = (start.after calls).critical ∧
      (start.after calls).content.Agrees e'.content ∧ e'.extension = .ok x :=
  ofExtension_extension (regular_after hmade.regular calls) h hlen hcount

/-- `survives_sessions` where a date with a fraction of a second is set by another spelling of its
name. -/
theorem exists_survives_sessions_fraction :
    ∃ x e', ofExtension x = .ok e' ∧
      (Content.invalidityDate (some ⟨1, 5, 3600⟩)).Agrees e'.content ∧ e'.extension = .ok x := by
  have hkey : (invalidityDate (.utc 0)).content.key "Date" = .ok .date :=
    key_eq_ok.mpr ⟨.date _, by decide +kernel⟩
  have hafter : (invalidityDate (.utc 0)).after [.set "Date" (.time ⟨1, 5, 3600⟩)] =
      ⟨false, .invalidityDate (some ⟨1, 5, 3600⟩)⟩ := by
    rw [after, session_cons, Call.on_set, set_of_key hkey]
    rfl
  -- the value is 19700101000001Z
  have hwrite : ((invalidityDate (.utc 0)).after [.set "Date" (.time ⟨1, 5, 3600⟩)]).extension =
      .ok ⟨Oid.invalidityDate, false, [0x18, 0x0F, 0x31, 0x39, 0x37, 0x30, 0x30, 0x31, 0x30, 0x31,
        0x30, 0x30, 0x30, 0x30, 0x30, 0x31, 0x5A]⟩ := by
    rw [hafter]
    rfl
  obtain ⟨e', hread, -, hagrees, hagain⟩ := survives_sessions (.invalidityDate (.utc 0))
    [.set "Date" (.time ⟨1, 5, 3600⟩)] hwrite (by decide)
    fun _ heq => by rw [hafter] at heq; cases heq
  rw [hafter] at hagrees
  exact ⟨_, e', hread, hagrees, hagain⟩

end TypedExtension

end Pkix
