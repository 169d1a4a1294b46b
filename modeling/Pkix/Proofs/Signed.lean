import Pkix.Proofs.Algorithm
import Pkix.Proofs.Der.Reader
import Pkix.Signed

/-!
# A signature covers everything but itself

A signed structure is taken apart where it was put together: nothing stands before, between or after
the three parts, and each part has one encoding. So body, algorithm and signature settle all octets,
and of these the signature is checked over the body as it stands.

* `Signed.WellFormed`: what the parts of a structure that is read obey.
* `Signed.ofOctets_eq_ok`: where octets are taken apart.
* `Signed.covers_all_but_itself`: certificates and revocation lists.
-/

namespace Pkix

open Der

namespace Signed

/-- The body of `s` is one element, and NULL parameters of the algorithm are empty. -/
structure WellFormed (s : Signed) : Prop where
  body : ∃ v : Value, s.body = v.octets
  algorithm : s.algorithm.Readable

/-- What stands inside the SEQUENCE of the signed structure `s`. -/
def content (s : Signed) : Bytes :=
  s.body ++ s.algorithm.octets ++ Write.wholeBits s.signature

variable {b : Bytes} {s : Signed} {c : Cursor}

/-- The three parts of `s` are what is left at `c`. -/
theorem parts_eq_ok (hlen : c.rest.length < UInt32.size) :
    (∃ c₁ c₂ c₃ v, c.raw = .ok (s.body, c₁) ∧ Algorithm.read c₁ = .ok (s.algorithm, c₂) ∧
        c₂.expect Tag.bitString = .ok (v, c₃) ∧ c₃.rest = [] ∧ v.wholeBits = .ok s.signature) ↔
      c.rest = s.content ∧ s.WellFormed := by
  simp only [Cursor.raw_eq_ok, Cursor.value_eq_ok, Algorithm.read_eq_ok, Value.wholeBits_eq_ok,
    Cursor.expect_eq_ok (show Value.Short Tag.bitString by decide)]
  constructor
  · rintro ⟨c₁, c₂, c₃, _, ⟨v, hbody, hv, -⟩, ⟨halgorithm, -, hread⟩, ⟨-, hsignature, -⟩, hrest,
      rfl⟩
    have hall := hv.rest
    rw [halgorithm.rest, hsignature.rest, hrest, List.append_nil, ← hbody, ← List.append_assoc]
      at hall
    exact ⟨hall, ⟨v, hbody⟩, hread⟩
  · rintro ⟨hall, ⟨v, hbody⟩, hread⟩
    rw [content, List.append_assoc] at hall
    obtain ⟨c₁, hv, hrest₁, -⟩ := Cursor.exists_step hall
    obtain ⟨c₂, halgorithm, hrest₂, -⟩ := Cursor.exists_step hrest₁
    rw [← List.append_nil (Write.wholeBits s.signature)] at hrest₂
    obtain ⟨c₃, hsignature, hrest₃, -⟩ := Cursor.exists_step hrest₂
    have halgorithmlen := Write.length_le_element Tag.sequence s.algorithm.content
    have hsignaturelen := Write.length_le_element Tag.bitString (0 :: s.signature)
    rw [hall, List.length_append, List.length_append, hbody, Algorithm.octets_eq,
      Write.wholeBits] at hlen
    have hframed : (Value.ofOctet Tag.bitString (0 :: s.signature)).Framed :=
      Nat.lt_of_le_of_lt hsignaturelen (by omega)
    exact ⟨c₁, c₂, c₃, Value.ofOctet Tag.bitString (0 :: s.signature),
      ⟨v, hbody, hbody ▸ hv, Value.framed_of_length (by omega)⟩,
      ⟨halgorithm, by omega, hread⟩, ⟨rfl, hsignature, hframed⟩, hrest₃, rfl⟩

/-- **Signed structures.** Octets `b` are taken apart into `s` exactly where they are what its parts
are written as. -/
theorem ofOctets_eq_ok :
    ofOctets b = .ok s ↔ b = s.octets ∧ s.WellFormed ∧ s.content.length < UInt32.size := by
  simp only [ofOctets, bind_eq_ok, pure_eq_ok, Prod.exists, Cursor.finish_eq_ok,
    Cursor.enter_eq_ok (show Value.Short Tag.sequence by decide)]
  constructor
  · rintro ⟨_, after, ⟨content, rfl, hstep, hlen⟩, -, hafter, body, c₁, hbody, algorithm, c₂,
      halgorithm, v, c₃, hsignature, -, hrest, signature, hbits, rfl⟩
    obtain ⟨hcontent, hformed⟩ := (parts_eq_ok (s := ⟨body, algorithm, signature⟩) hlen).mp
      ⟨c₁, c₂, c₃, v, hbody, halgorithm, hsignature, hrest, hbits⟩
    rw [Cursor.rest_ofBuffer] at hcontent
    have hall := hstep.rest
    rw [Cursor.rest_ofBuffer, hafter, List.append_nil, hcontent] at hall
    exact ⟨hall, hformed, hcontent ▸ hlen⟩
  · rintro ⟨rfl, hformed, hlen⟩
    have hall : (Cursor.ofBuffer s.octets .default).rest = s.octets ++ [] :=
      (List.append_nil s.octets).symm
    obtain ⟨after, hstep, hafter, -⟩ := Cursor.exists_step hall
    obtain ⟨c₁, c₂, c₃, v, hbody, halgorithm, hsignature, hrest, hbits⟩ :=
      (parts_eq_ok (c := .ofBuffer s.content .default) hlen).mpr ⟨rfl, hformed⟩
    exact ⟨_, after, ⟨s.content, rfl, hstep, hlen⟩, (), hafter, s.body, c₁, hbody, s.algorithm, c₂,
      halgorithm, v, c₃, hsignature, (), hrest, s.signature, hbits, rfl⟩

/-- What is one element `v` with a content that can be read is short enough to be taken apart. -/
theorem ofOctets_value_eq_ok {v : Value} (hv : v.Framed) :
    ofOctets v.octets = .ok s ↔ v.octets = s.octets ∧ s.WellFormed := by
  rw [ofOctets_eq_ok]
  constructor
  · rintro ⟨hoctets, hformed, -⟩
    exact ⟨hoctets, hformed⟩
  · rintro ⟨hoctets, hformed⟩
    have hvalue : v = Value.ofOctet Tag.sequence s.content := by
      apply Value.octets_inj
      rw [hoctets, Value.octets_ofOctet (by decide)]
      rfl
    refine ⟨hoctets, hformed, ?_⟩
    rwa [hvalue] at hv

theorem wellFormed_iff :
    s.WellFormed ↔ (∃ v : Value, s.body = v.octets) ∧ s.algorithm.Readable :=
  ⟨fun h => ⟨h.body, h.algorithm⟩, fun h => ⟨h.1, h.2⟩⟩

end Signed

/-- A certificate `c` is taken apart into `s` exactly where its octets are what the parts are
written as. -/
theorem Certificate.signed_eq_ok {c : Certificate} {s : Signed} :
    c.signed = .ok s ↔ c.octets = s.octets ∧ s.WellFormed := by
  obtain ⟨v, hv, hoctets⟩ := c.exists_value
  rw [Certificate.signed, hoctets, Signed.ofOctets_value_eq_ok hv]

/-- A revocation list `c` is taken apart into `s` exactly where its octets are what the parts are
written as. -/
theorem Crl.signed_eq_ok {c : Crl} {s : Signed} :
    c.signed = .ok s ↔ c.octets = s.octets ∧ s.WellFormed := by
  obtain ⟨v, hv, hoctets⟩ := c.exists_value
  rw [Crl.signed, hoctets, Signed.ofOctets_value_eq_ok hv]

theorem Certificate.verify_of_signed {c : Certificate} {s : Signed} (h : c.signed = .ok s)
    (key : PublicKey) : c.verify key = s.verify key := by
  rw [Certificate.verify, h]
  rfl

theorem Crl.verify_of_signed {c : Crl} {s : Signed} (h : c.signed = .ok s) (key : PublicKey) :
    c.verify key = s.verify key := by
  rw [Crl.verify, h]
  rfl

/-- **A signature covers everything but itself.** A certificate `c` is taken apart into `s`, a body,
an algorithm and a signature, exactly where its octets are the SEQUENCE of `s.body` as it stands
there, the encoding of `s.algorithm` and a BIT STRING of whole octets, the body is one element, and
NULL parameters are empty. `c.verify` then checks the signature by the key over `s.body`. So a
certificate with the same three parts is the same, octet by octet. All this holds of revocation
lists too. -/
theorem Signed.covers_all_but_itself (s : Signed) :
    (∀ c : Certificate,
      (c.signed = .ok s ↔
        c.octets = Write.element Tag.sequence
          (s.body ++ s.algorithm.octets ++ Write.wholeBits s.signature) ∧
        (∃ v : Value, s.body = v.octets) ∧
        ∀ v ∈ s.algorithm.parameters, v.is Tag.null = true → v.content = []) ∧
      (c.signed = .ok s →
        (∀ key : PublicKey, c.verify key =
          SignatureAlgorithm.ofAlgorithm s.algorithm >>= fun a =>
            key.verify a.scheme a.digest s.body s.signature) ∧
        ∀ c' : Certificate, c'.signed = .ok s → c'.octets = c.octets)) ∧
    (∀ c : Crl,
      (c.signed = .ok s ↔
        c.octets = Write.element Tag.sequence
          (s.body ++ s.algorithm.octets ++ Write.wholeBits s.signature) ∧
        (∃ v : Value, s.body = v.octets) ∧
        ∀ v ∈ s.algorithm.parameters, v.is Tag.null = true → v.content = []) ∧
      (c.signed = .ok s →
        (∀ key : PublicKey, c.verify key =
          SignatureAlgorithm.ofAlgorithm s.algorithm >>= fun a =>
            key.verify a.scheme a.digest s.body s.signature) ∧
        ∀ c' : Crl, c'.signed = .ok s → c'.octets = c.octets)) := by
  constructor
  · intro c
    refine ⟨?_, fun h => ⟨Certificate.verify_of_signed h, fun c' h' => ?_⟩⟩
    · rw [Certificate.signed_eq_ok, Signed.wellFormed_iff]
      rfl
    · exact (Certificate.signed_eq_ok.mp h').1.trans (Certificate.signed_eq_ok.mp h).1.symm
  · intro c
    refine ⟨?_, fun h => ⟨Crl.verify_of_signed h, fun c' h' => ?_⟩⟩
    · rw [Crl.signed_eq_ok, Signed.wellFormed_iff]
      rfl
    · exact (Crl.signed_eq_ok.mp h').1.trans (Crl.signed_eq_ok.mp h).1.symm

end Pkix
