import Pkix.Der.Tag

/-!
# Tags on 32-bit words

Identifier octets, read by index and written group by group on words of 32 bits. A number makes room
for the next group where a word holds 128 times the number; the seven bits of the group then go into
the bits that are free.

* `Tag.ofBits`: the tag that one octet spells, by its bits.
* `Tag.numberTurn`: what one turn of the loop over the octets of a long number does.
  `Tag.numberFrom`: turns up to the one that ends.
* `Tag.read`: the tag at the start of the octets and how many octets it takes up.
* `Tag.written`: the identifier octets.
-/

namespace Pkix.Der

/-- The two high bits of the first identifier octet. -/
def TagClass.bits : TagClass → UInt8
  | .universal => 0x00
  | .application => 0x40
  | .context => 0x80
  | .privateUse => 0xC0

namespace Tag

/-- The tag spelt by one octet `x`. -/
def ofBits (x : UInt8) : Tag where
  cls := if x >>> 6 = 0 then .universal
    else if x >>> 6 = 1 then .application
    else if x >>> 6 = 2 then .context
    else .privateUse
  constructed := x &&& 0x20 != 0
  number := (x &&& 0x1F).toUInt32

/-! ## Reading -/

/-- The product of two words `a` and `b`, if a word holds it. -/
def mul? (a b : UInt32) : Option UInt32 :=
  if a.toNat * b.toNat < UInt32.size then some (a * b) else none

/-- What a turn of the loop over the octets of a long number comes to, as `numberTurn` takes it. -/
inductive NumberTurn
  /-- It was the last one: the number and the index after it, or why there is no number. -/
  | ends (outcome : Except Error (UInt32 × Nat))
  /-- The groups so far make the `number`, and another one must follow. -/
  | goesOn (number : UInt32) (index : Nat)

/-- Takes the octet of `b` at the `index` into the `number`. The first identifier octet has index 0,
so that the first group has index 1. -/
def numberTurn (b : Bytes) (number : UInt32) (index : Nat) : NumberTurn :=
  match b[index]? with
  | none => .ends (.error (.malformed .tagTruncated))
  | some x =>
    if index = 1 ∧ x = 0x80 then .ends (.error (.malformed .tagPadded))
    else match mul? number 128 with
      | none => .ends (.error (.malformed .tagTooLarge))
      | some scaled =>
        let number := scaled ||| (x &&& 0x7F).toUInt32
        if x &&& 0x80 = 0 then .ends (.ok (number, index + 1))
        else .goesOn number (index + 1)

/-- A turn that goes on has passed one octet of `b`. -/
theorem lt_of_numberTurn {b : Bytes} {number number' : UInt32} {index index' : Nat}
    (h : numberTurn b number index = .goesOn number' index') :
    index < b.length ∧ index' = index + 1 := by
  unfold numberTurn at h
  split at h
  · cases h
  · rename_i x hx
    split at h
    · cases h
    · split at h
      · cases h
      · simp only at h
        split at h
        · cases h
        · cases h
          exact ⟨(List.getElem?_eq_some_iff.mp hx).1, rfl⟩

/-- Takes turns from the `index` on until one ends. -/
def numberFrom (b : Bytes) (number : UInt32) (index : Nat) : Except Error (UInt32 × Nat) :=
  match _ : numberTurn b number index with
  | .ends outcome => outcome
  | .goesOn number' index' => numberFrom b number' index'
termination_by b.length - index
decreasing_by
  have := lt_of_numberTurn ‹_›
  omega

/-- The tag at the start of the octets, and how many of them it takes up. -/
def read : Bytes → Except Error (Tag × Nat)
  | [] => .error (.malformed .tagMissing)
  | x :: rest =>
    if x &&& 0x1F ≠ 0x1F then .ok (ofBits x, 1)
    else do
      let (number, used) ← numberFrom (x :: rest) 0 1
      if number < 0x1F then .error (.malformed .tagNotShort)
      else return ({ ofBits x with number }, used)

/-! ## Writing -/

/-- The groups of seven bits of a word `w`, the last one first. -/
def groups (w : UInt32) : Bytes :=
  if w = 0 then [] else (w &&& 0x7F).toUInt8 :: groups (w >>> 7)
termination_by w.toNat
decreasing_by
  rename_i hw
  have hpos : w.toNat ≠ 0 := fun h => hw (UInt32.toNat_inj.mp h)
  have hshift : (w >>> 7).toNat = w.toNat / 128 := by
    rw [UInt32.toNat_shiftRight]
    exact Nat.shiftRight_eq_div_pow _ _
  omega

/-- The identifier octets of `t`. Every group but the last has its high bit set. -/
def written (t : Tag) : Bytes :=
  let lead := t.cls.bits ||| (if t.constructed then 0x20 else 0)
  if t.number < 0x1F then [lead ||| t.number.toUInt8]
  else
    let groups := groups t.number
    (lead ||| 0x1F) ::
      groups.reverse.mapIdx fun i group => if i < groups.length - 1 then group ||| 0x80 else group

end Tag

end Pkix.Der
