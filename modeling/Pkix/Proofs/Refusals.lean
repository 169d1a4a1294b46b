import Pkix.Certificate.Basic
import Pkix.Proofs.Except

/-!
# What octets are refused for

Readers of elements complain of the encoding and of nothing else. A public key may also be of a kind
that cannot be used.

* `Der.onlyMalformed_decode`, `Der.Value.onlyMalformed_oid` and so on: elements and the universal
  types.
* `Certificate.onlyMalformed_keyUsage?`, `Certificate.failsWith_publicKey`: the parts of a
  certificate that signatures are checked with.
-/

namespace Pkix

open Der

namespace Error

/-- The encoding is at fault: the error is `malformed`. -/
def IsMalformed : Error → Prop
  | malformed _ => True
  | _ => False

@[simp]
theorem isMalformed_malformed (cause : Malformed) : (malformed cause).IsMalformed := trivial

end Error

/-- Only the encoding can be at fault in `x`. -/
abbrev OnlyMalformed {α : Type} (x : Except Error α) : Prop := FailsWith Error.IsMalformed x

/-! ## Elements -/

@[simp]
theorem Der.Tag.onlyMalformed_ofOctets (b : Bytes) : OnlyMalformed (Tag.ofOctets b) := by
  unfold Tag.ofOctets
  cases b with
  | nil => simp
  | cons x rest =>
    simp only [failsWith_ite, failsWith_ok, implies_true, true_and]
    intro
    split <;> simp

@[simp]
theorem Der.Length.onlyMalformed_ofOctets (b : Bytes) : OnlyMalformed (Length.ofOctets b) := by
  unfold Length.ofOctets
  cases b <;> simp

@[simp]
theorem Der.Value.onlyMalformed_first (b : Bytes) : OnlyMalformed (Value.first b) := by
  simp [Value.first]

namespace Der.Cursor

variable (c : Cursor)

@[simp]
theorem onlyMalformed_finish : OnlyMalformed c.finish := by simp [finish]

@[simp]
theorem onlyMalformed_value : OnlyMalformed c.value := by simp [value]

@[simp]
theorem onlyMalformed_raw : OnlyMalformed c.raw := by simp [raw]

@[simp]
theorem onlyMalformed_expect (tag : UInt8) : OnlyMalformed (c.expect tag) := by simp [expect]

@[simp]
theorem onlyMalformed_enter (tag : UInt8) : OnlyMalformed (c.enter tag) := by simp [enter]

@[simp]
theorem onlyMalformed_start (b : Bytes) (limits : Limits) : OnlyMalformed (start b limits) := by
  simp [start, Limits.check]

theorem onlyMalformed_allFrom (done : List Value) (room : Nat) :
    OnlyMalformed (c.allFrom done room) := by
  induction room generalizing c done with
  | zero => simp [allFrom]
  | succ room ih =>
    simp only [allFrom, failsWith_ite, failsWith_ok, implies_true, true_and]
    intro
    split
    · rename_i e he
      exact failsWith_error.mpr (c.onlyMalformed_value e he)
    · exact ih _ _

@[simp]
theorem onlyMalformed_all : OnlyMalformed c.all := c.onlyMalformed_allFrom _ _

end Der.Cursor

@[simp]
theorem Der.onlyMalformed_decode (b : Bytes) : OnlyMalformed (decode b) := by simp [decode]

/-! ## The universal types -/

namespace Oid

theorem onlyMalformed_numbers (b : Bytes) (done : List Nat) : OnlyMalformed (numbers b done) := by
  induction b, done using numbers.induct with
  | case1 => simp [numbers]
  | case2 b done hb fault h =>
    rw [numbers, if_neg hb]
    split <;> simp_all
  | case3 b done hb n rest h hlt ih =>
    rw [numbers, if_neg hb]
    split <;> simp_all

@[simp]
theorem onlyMalformed_ofArcs (arcs : List Nat) : OnlyMalformed (ofArcs arcs) := by
  unfold ofArcs
  split
  · simp
  · split <;> simp

@[simp]
theorem onlyMalformed_ofContent (content : Bytes) : OnlyMalformed (ofContent content) := by
  unfold ofContent
  split
  · rename_i e he
    exact failsWith_error.mpr (onlyMalformed_numbers content [] e he)
  · simp
  · simp

end Oid

@[simp]
theorem Der.BitString.onlyMalformed_new (octets : Bytes) (unused : UInt8) :
    OnlyMalformed (BitString.new octets unused) := by
  unfold BitString.new
  split <;> simp

namespace Der.Value

variable (v : Value)

@[simp]
theorem onlyMalformed_require (tag : UInt8) (name : String) :
    OnlyMalformed (v.require tag name) := by
  simp [require]

@[simp]
theorem onlyMalformed_oid : OnlyMalformed v.oid := by simp [oid]

@[simp]
theorem onlyMalformed_octetString : OnlyMalformed v.octetString := by simp [octetString]

@[simp]
theorem onlyMalformed_null : OnlyMalformed v.null := by simp [null]

@[simp]
theorem onlyMalformed_integer : OnlyMalformed v.integer := by simp [integer, signed]

@[simp]
theorem onlyMalformed_magnitude : OnlyMalformed v.magnitude := by simp [magnitude]

@[simp]
theorem onlyMalformed_wholeBits : OnlyMalformed v.wholeBits := by
  simp only [wholeBits, failsWith_bind, onlyMalformed_require, true_and]
  intros
  split <;> simp

@[simp]
theorem onlyMalformed_bitString : OnlyMalformed v.bitString := by
  simp only [bitString, failsWith_bind, onlyMalformed_require, true_and]
  intros
  split <;> simp

@[simp]
theorem onlyMalformed_children (limits : Limits) : OnlyMalformed (v.children limits) := by
  simp [children]

end Der.Value

@[simp]
theorem Der.Cursor.onlyMalformed_oid (c : Cursor) : OnlyMalformed c.oid := by simp [Cursor.oid]

/-! ## Algorithms and keys -/

namespace Algorithm

@[simp]
theorem onlyMalformed_readParameters (c : Cursor) : OnlyMalformed (readParameters c) := by
  simp [readParameters]

@[simp]
theorem onlyMalformed_ofValue (limits : Limits) (v : Value) : OnlyMalformed (ofValue limits v) := by
  simp [ofValue]

@[simp]
theorem onlyMalformed_read (c : Cursor) : OnlyMalformed (read c) := by simp [read]

end Algorithm

@[simp]
theorem DsaParameters.onlyMalformed_ofValue (v : Value) : OnlyMalformed (ofValue v) := by
  simp [ofValue]

namespace Error

/-- An algorithm or a key cannot be used for what is asked of it: `unsupportedAlgorithm` or
`signature`. -/
def IsUnusable : Error → Prop
  | unsupportedAlgorithm _ => True
  | signature _ => True
  | _ => False

instance (e : Error) : Decidable e.IsUnusable := by
  cases e <;> unfold IsUnusable <;> infer_instance

/-- A key is refused with `e` for its encoding, for its kind, or for the numbers that it is made
of. -/
def RefusesKey (e : Error) : Prop := e.IsMalformed ∨ e = rsa ∨ e.IsUnusable

theorem IsMalformed.not_isUnusable {e : Error} (h : e.IsMalformed) : ¬e.IsUnusable := by
  cases e <;> simp_all [IsMalformed, IsUnusable]

end Error

/-- A step `x` that complains of the encoding may stand where keys are refused (`RefusesKey`). -/
theorem OnlyMalformed.refusesKey {α : Type} {x : Except Error α} (h : OnlyMalformed x) :
    FailsWith Error.RefusesKey x :=
  h.imp fun _ => .inl

namespace PublicKey

theorem failsWith_readRsa (bits : Bytes) : FailsWith Error.RefusesKey (readRsa bits) := by
  simp only [readRsa]
  split
  · simp only [failsWith_bind, failsWith_pure, Rsa.PublicKey.new, implies_true, and_true]
    split <;> simp [Error.RefusesKey]
  · simp [Error.RefusesKey]

theorem failsWith_readEcdsa (parameters : Option Value) (bits : Bytes) :
    FailsWith Error.RefusesKey (readEcdsa parameters bits) := by
  unfold readEcdsa
  cases parameters with
  | none => simp [Error.RefusesKey]
  | some v =>
    refine failsWith_bind.mpr ⟨v.onlyMalformed_oid.refusesKey, fun id _ => ?_⟩
    split
    · simp [Error.RefusesKey, Error.IsUnusable]
    · split <;> simp [Error.RefusesKey, Error.IsUnusable]

theorem failsWith_readEd25519 (bits : Bytes) : FailsWith Error.RefusesKey (readEd25519 bits) := by
  unfold readEd25519
  split
  · simp [Error.RefusesKey]
  · split <;> simp [Error.RefusesKey, Error.IsUnusable]

theorem failsWith_dsaParameters (a : Algorithm) :
    FailsWith Error.RefusesKey (DsaParameters.ofAlgorithm a) := by
  unfold DsaParameters.ofAlgorithm
  split
  · simp [Error.RefusesKey, Error.IsUnusable]
  · split
    · simp [Error.RefusesKey]
    · exact (DsaParameters.onlyMalformed_ofValue _).refusesKey

theorem failsWith_read (a : Algorithm) (bits : Bytes) :
    FailsWith Error.RefusesKey (read a bits) := by
  unfold read
  refine failsWith_ite.mpr ⟨fun _ => failsWith_readRsa bits, fun _ => ?_⟩
  refine failsWith_ite.mpr ⟨fun _ => failsWith_readEcdsa _ bits, fun _ => ?_⟩
  refine failsWith_ite.mpr ⟨fun _ => failsWith_readEd25519 bits, fun _ => ?_⟩
  refine failsWith_ite.mpr ⟨fun _ => ?_, fun _ => ?_⟩
  · refine failsWith_bind.mpr ⟨failsWith_dsaParameters a, fun parameters _ => ?_⟩
    refine failsWith_bind.mpr ⟨(onlyMalformed_decode bits).refusesKey, fun v _ => ?_⟩
    exact failsWith_bind.mpr ⟨v.onlyMalformed_integer.refusesKey, fun _ _ => failsWith_pure⟩
  · simp [Error.RefusesKey, Error.IsUnusable]

/-- A key with its algorithm, `v`, is refused for its encoding, its kind or its numbers. -/
theorem failsWith_ofValue (v : Value) : FailsWith Error.RefusesKey (ofValue v) := by
  unfold ofValue
  refine failsWith_ite.mpr ⟨fun _ => ?_, fun _ => by simp [Error.RefusesKey]⟩
  refine failsWith_bind.mpr ⟨(Algorithm.onlyMalformed_read _).refusesKey, ?_⟩
  rintro ⟨a, c⟩ -
  refine failsWith_bind.mpr ⟨(c.onlyMalformed_expect _).refusesKey, ?_⟩
  rintro ⟨key, c⟩ -
  refine failsWith_bind.mpr ⟨c.onlyMalformed_finish.refusesKey, fun _ _ => ?_⟩
  exact failsWith_bind.mpr ⟨key.onlyMalformed_wholeBits.refusesKey, fun bits _ =>
    failsWith_read a bits⟩

end PublicKey

/-! ## Certificates -/

@[simp]
theorem Signed.onlyMalformed_ofOctets (b : Bytes) : OnlyMalformed (ofOctets b) := by
  simp [ofOctets]

@[simp]
theorem Content.onlyMalformed_decodeKeyUsage (b : Bytes) : OnlyMalformed (decodeKeyUsage b) := by
  simp [decodeKeyUsage]

namespace Certificate

variable (c : Certificate)

@[simp]
theorem onlyMalformed_field (index : Nat) : OnlyMalformed (c.field index) := by
  simp only [field, fields, signed, failsWith_bind, Signed.onlyMalformed_ofOctets,
    onlyMalformed_decode, Value.onlyMalformed_children, failsWith_pure, true_and, implies_true]
  intros
  split <;> simp

/-- The uses of a key, `c.keyUsage?`, are refused for their encoding. -/
theorem onlyMalformed_keyUsage? : OnlyMalformed c.keyUsage? := by
  unfold keyUsage? typedExtension?
  split
  · simp
  · rename_i e he
    have hid : e.id = Oid.keyUsage := by simpa using List.find?_some he
    simp [TypedExtension.ofExtension, Content.decode, hid]

/-- The key of a certificate `c` is refused for its encoding, its kind or its numbers. -/
theorem failsWith_publicKey : FailsWith Error.RefusesKey c.publicKey :=
  failsWith_bind.mpr
    ⟨(c.onlyMalformed_field 5).refusesKey, fun v _ => PublicKey.failsWith_ofValue v⟩

end Certificate

end Pkix
