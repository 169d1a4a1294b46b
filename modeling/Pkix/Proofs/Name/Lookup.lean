import Pkix.Name.Basic
import Pkix.Proofs.Except

/-!
# Looking up attributes of a name

The text of an attribute is looked for from the most specific relative name on. The first assertion
about the attribute decides: where its value is no text there is no answer, also where a more
general assertion has one.

* `Name.MostSpecific`: the assertion that is found first. `Name.bySpecificity_find?_eq_some`: it is.
* `Name.Obscured`: a value that is no text stands before one that is.
* `Name.attribute?_eq_some_iff`: what is answered.
* `Name.attribute?_mostSpecific`: the answer is the most specific text unless that one is obscured.
-/

namespace Pkix

open Der

/-- The value of `a` is a character string whose octets stand for text. -/
def Assertion.HasText (a : Assertion) : Prop := ∃ s, a.value.text = .ok s

instance (a : Assertion) : Decidable a.HasText :=
  match h : a.value.text with
  | .ok s => .isTrue ⟨s, h⟩
  | .error _ => .isFalse fun ⟨_, hs⟩ => by simp [h] at hs

namespace Name

/-- The assertion `a` is one of the name `n`. -/
def Asserts (n : Name) (a : Assertion) : Prop := ∃ r ∈ n.rdns, a ∈ r.assertions

/-- `a` is the first assertion of `n` with the property `p` in the last relative name that has
one. -/
def MostSpecific (n : Name) (p : Assertion → Prop) (a : Assertion) : Prop :=
  ∃ general r specific before after,
    n.rdns = general ++ r :: specific ∧ r.assertions = before ++ a :: after ∧ p a ∧
      (∀ b ∈ before, ¬p b) ∧ ∀ s ∈ specific, ∀ b ∈ s.assertions, ¬p b

/-- The most specific value of the attribute `type` in `n` is no text, but another value of it
is. -/
def Obscured (n : Name) (type : Oid) : Prop :=
  (∃ a, n.MostSpecific (·.type = type) a ∧ ¬a.HasText) ∧
    ∃ b, n.Asserts b ∧ b.type = type ∧ b.HasText

section Search

variable {n : Name} {p : Assertion → Prop} {a : Assertion}

theorem MostSpecific.holds (h : n.MostSpecific p a) : p a := by
  obtain ⟨-, -, -, -, -, -, -, hp, -⟩ := h
  exact hp

/-- The most specific assertion `a` of many (`p`) is the most specific one of fewer (`q`), if it is
one of them. -/
theorem MostSpecific.of_imp {q : Assertion → Prop} (h : n.MostSpecific p a) (hq : q a)
    (himp : ∀ b, q b → p b) : n.MostSpecific q a := by
  obtain ⟨general, r, specific, before, after, hrdns, hassertions, -, hbefore, hspecific⟩ := h
  exact ⟨general, r, specific, before, after, hrdns, hassertions, hq,
    fun b hb => mt (himp b) (hbefore b hb), fun s hs b hb => mt (himp b) (hspecific s hs b hb)⟩

variable [DecidablePred p]

theorem mem_bySpecificity : a ∈ n.bySpecificity ↔ n.Asserts a := by
  simp [bySpecificity, Asserts]

/-- **The search.** From the most specific end on, the most specific assertion with `p` is met
first. -/
theorem bySpecificity_find?_eq_some :
    n.bySpecificity.find? (fun b => decide (p b)) = some a ↔ n.MostSpecific p a := by
  rw [bySpecificity, List.find?_flatMap, List.findSome?_eq_some_iff]
  constructor
  · rintro ⟨specific, r, general, hrdns, hfind, hnone⟩
    obtain ⟨hp, before, after, hassertions, hbefore⟩ := List.find?_eq_some_iff_append.mp hfind
    refine ⟨general.reverse, r, specific.reverse, before, after, ?_, hassertions,
      by simpa using hp, fun b hb => by simpa using hbefore b hb, fun s hs b hb => ?_⟩
    · rw [← List.reverse_inj, hrdns]
      simp
    · have := List.find?_eq_none.mp (hnone s (List.mem_reverse.mp hs)) b hb
      simpa using this
  · rintro ⟨general, r, specific, before, after, hrdns, hassertions, hp, hbefore, hspecific⟩
    refine ⟨specific.reverse, r, general.reverse, ?_, ?_, fun s hs => ?_⟩
    · rw [hrdns]
      simp
    · refine List.find?_eq_some_iff_append.mpr ⟨by simpa using hp, before, after, hassertions, ?_⟩
      intro b hb
      simpa using hbefore b hb
    · refine List.find?_eq_none.mpr fun b hb => ?_
      simpa using hspecific s (List.mem_reverse.mp hs) b hb

/-- There is a most specific assertion with `p` where there is one at all. -/
theorem exists_mostSpecific_iff : (∃ a, n.MostSpecific p a) ↔ ∃ a, n.Asserts a ∧ p a := by
  simp only [← bySpecificity_find?_eq_some, ← mem_bySpecificity, ← Option.isSome_iff_exists,
    List.find?_isSome, decide_eq_true_eq]

theorem MostSpecific.asserts (h : n.MostSpecific p a) : n.Asserts a := by
  rw [← mem_bySpecificity]
  exact List.mem_of_find?_eq_some (bySpecificity_find?_eq_some.mpr h)

theorem MostSpecific.unique {b : Assertion} (ha : n.MostSpecific p a) (hb : n.MostSpecific p b) :
    a = b := by
  rw [← bySpecificity_find?_eq_some] at ha hb
  exact Option.some.inj (ha.symm.trans hb)

end Search

variable {n : Name} {type : Oid} {s : String}

theorem obscured_iff : n.Obscured type ↔
    (∃ a ∈ n.bySpecificity.find? fun a => decide (a.type = type), ¬a.HasText) ∧
      ∃ b ∈ n.bySpecificity, b.type = type ∧ b.HasText := by
  simp only [Obscured, Option.mem_def, bySpecificity_find?_eq_some, mem_bySpecificity]

instance : Decidable (n.Obscured type) := decidable_of_iff' _ obscured_iff

/-- What `attribute?` answers is the text of the most specific assertion about `type`. -/
theorem attribute?_eq_some_iff :
    n.attribute? type = some s ↔
      ∃ a, n.MostSpecific (·.type = type) a ∧ a.value.text = .ok s := by
  have hfind : n.bySpecificity.find? (fun a => a.type == type) =
      n.bySpecificity.find? fun a => decide (a.type = type) := rfl
  rw [attribute?, hfind]
  cases h : n.bySpecificity.find? fun a => decide (a.type = type) with
  | none =>
    constructor
    · intro hnone
      cases hnone
    · rintro ⟨a, ha, -⟩
      rw [bySpecificity_find?_eq_some.mpr ha] at h
      cases h
  | some a =>
    have ha := bySpecificity_find?_eq_some.mp h
    show a.value.text.toOption = some s ↔ _
    rw [toOption_eq_some]
    constructor
    · intro htext
      exact ⟨a, ha, htext⟩
    · rintro ⟨b, hb, htext⟩
      obtain rfl := ha.unique hb
      exact htext

/-- There is no answer where a value stands before the texts that is none (`Obscured`). -/
theorem Obscured.attribute?_eq_none (h : n.Obscured type) : n.attribute? type = none := by
  obtain ⟨⟨a, ha, hnotext⟩, -⟩ := h
  cases hs : n.attribute? type with
  | none => rfl
  | some s =>
    obtain ⟨b, hb, htext⟩ := attribute?_eq_some_iff.mp hs
    obtain rfl := ha.unique hb
    exact absurd ⟨s, htext⟩ hnotext

/-- Unless it is obscured, the most specific text, that of `a`, belongs to the most specific
value. -/
theorem mostSpecific_of_not_obscured (h : ¬n.Obscured type) {a : Assertion}
    (ha : n.MostSpecific (fun b => b.type = type ∧ b.HasText) a) :
    n.MostSpecific (·.type = type) a := by
  have hsome : ∃ b, n.Asserts b ∧ b.type = type := ⟨a, ha.asserts, ha.holds.1⟩
  obtain ⟨b, hb⟩ := exists_mostSpecific_iff.mpr hsome
  have htext : b.HasText := Decidable.byContradiction fun hno =>
    h ⟨⟨b, hb, hno⟩, a, ha.asserts, ha.holds⟩
  have hsame : n.MostSpecific (fun b => b.type = type ∧ b.HasText) b :=
    hb.of_imp ⟨hb.holds, htext⟩ fun _ h => h.1
  obtain rfl := ha.unique hsame
  exact hb

/-- **The most specific text.** `n.attribute? type` is the text of the most specific assertion about
`type`. Unless that one obscures a text (`Obscured`), there is none exactly where no assertion about
`type` has a text, and otherwise it is the most specific text; where it does obscure one, there is
no answer, although there is a most specific text. -/
theorem attribute?_mostSpecific (n : Name) (type : Oid) :
    (∀ s, n.attribute? type = some s ↔
      ∃ a, n.MostSpecific (·.type = type) a ∧ a.value.text = .ok s) ∧
    (¬n.Obscured type →
      (n.attribute? type = none ↔ ∀ a, n.Asserts a → a.type = type → ¬a.HasText) ∧
      ∀ s, n.attribute? type = some s ↔
        ∃ a, n.MostSpecific (fun b => b.type = type ∧ b.HasText) a ∧ a.value.text = .ok s) ∧
    (n.Obscured type → n.attribute? type = none ∧
      ∃ a, n.MostSpecific (fun b => b.type = type ∧ b.HasText) a) := by
  refine ⟨fun s => attribute?_eq_some_iff, fun h => ?_, fun h => ⟨h.attribute?_eq_none, ?_⟩⟩
  · have hanswer (s : String) : n.attribute? type = some s ↔
        ∃ a, n.MostSpecific (fun b => b.type = type ∧ b.HasText) a ∧ a.value.text = .ok s := by
      rw [attribute?_eq_some_iff]
      constructor
      · rintro ⟨a, ha, htext⟩
        exact ⟨a, ha.of_imp ⟨ha.holds, s, htext⟩ fun _ hb => hb.1, htext⟩
      · rintro ⟨a, ha, htext⟩
        exact ⟨a, mostSpecific_of_not_obscured h ha, htext⟩
    refine ⟨?_, hanswer⟩
    rw [Option.eq_none_iff_forall_ne_some]
    constructor
    · intro hnone a ha htype htext
      have hsome : ∃ b, n.Asserts b ∧ b.type = type ∧ b.HasText := ⟨a, ha, htype, htext⟩
      obtain ⟨b, hb⟩ := exists_mostSpecific_iff.mpr hsome
      obtain ⟨s, hs⟩ := hb.holds.2
      exact hnone s ((hanswer s).mpr ⟨b, hb, hs⟩)
    · intro hno s hs
      obtain ⟨a, ha, -⟩ := (hanswer s).mp hs
      exact hno a ha.asserts ha.holds.1 ha.holds.2
  · obtain ⟨-, b, hb, htype, htext⟩ := h
    exact exists_mostSpecific_iff.mpr ⟨b, hb, htype, htext⟩

/-- `attribute?_mostSpecific` where a common name that is an INTEGER stands in the relative name
before the one with the text. -/
theorem attribute?_mostSpecific_text :
    (Name.mk [⟨[⟨Oid.commonName, .ofOctet Tag.integer [0x05]⟩]⟩,
      ⟨[⟨Oid.country, .ofOctet Tag.printableString [0x44, 0x45]⟩,
        ⟨Oid.commonName, .ofOctet Tag.utf8String [0x41]⟩]⟩] []).commonName? = some "A" := by
  have hclear : ¬Obscured (Name.mk [⟨[⟨Oid.commonName, .ofOctet Tag.integer [0x05]⟩]⟩,
      ⟨[⟨Oid.country, .ofOctet Tag.printableString [0x44, 0x45]⟩,
        ⟨Oid.commonName, .ofOctet Tag.utf8String [0x41]⟩]⟩] []) Oid.commonName := by
    decide +kernel
  obtain ⟨-, hanswer⟩ := (attribute?_mostSpecific _ Oid.commonName).2.1 hclear
  refine (hanswer "A").mpr ⟨⟨Oid.commonName, .ofOctet Tag.utf8String [0x41]⟩, ?_, ?_⟩
  · rw [← bySpecificity_find?_eq_some]
    decide +kernel
  · rw [← toOption_eq_some]
    decide +kernel

/-- `commonName?` of `CN=A` with a more specific common name that is an INTEGER. -/
theorem commonName?_obscured :
    ((ofOctets [0x30, 0x18, 0x31, 0x0A, 0x30, 0x08, 0x06, 0x03, 0x55, 0x04, 0x03, 0x0C, 0x01, 0x41,
      0x31, 0x0A, 0x30, 0x08, 0x06, 0x03, 0x55, 0x04, 0x03, 0x02, 0x01, 0x05]).map
        fun n => (n.rdns, n.commonName?)) =
      .ok ([⟨[⟨Oid.commonName, .ofOctet Tag.utf8String [0x41]⟩]⟩,
        ⟨[⟨Oid.commonName, .ofOctet Tag.integer [0x05]⟩]⟩], none) ∧
    (Value.ofOctet Tag.utf8String [0x41]).text = .ok "A" := by
  rw [← toOption_eq_some, ← toOption_eq_some]
  decide +kernel

end Name

end Pkix
