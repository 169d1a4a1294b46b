import Pkix.Extension.Attributes
import Pkix.Proofs.Except

/-!
# The attributes of a content

A content is a map from its attributes to values: a value that is stored for an attribute is the
one that is looked up, and the other attributes keep theirs.

* `AttributeKey.eq_of_sameName`: no two attributes share a name, even up to ASCII case.
* `Content.key_eq_ok`, `Content.key_eq_refusal`: which names are known, and how others are refused.
* `AttributeKey.Takes`: the values that an attribute may have.
* `Content.Updates`: one attribute has another value; `Content.store_spec`,
  `Content.updates_clear`: this is what storing and clearing do.
-/

namespace Pkix

namespace KeyUse

theorem index_inj {u w : KeyUse} (h : u.index = w.index) : u = w := by
  cases u <;> cases w <;> first | rfl | cases h

/-- Setting the bit of `u` changes that bit alone, also where the list `bits` is too short. -/
theorem getD_set (bits : List Bool) (u : KeyUse) (b : Bool) (n : Nat) :
    (set bits u b).getD n false = if u.index = n then b else bits.getD n false := by
  have hlen : u.index < bits.length + (u.index + 1 - bits.length) := by omega
  simp only [set, List.getD_eq_getElem?_getD, List.getElem?_set, List.length_append,
    List.length_replicate, hlen, if_true]
  split
  · rfl
  · rw [List.getElem?_append, List.getElem?_replicate]
    split
    · rfl
    · rename_i hn
      rw [List.getElem?_eq_none (by omega)]
      split <;> rfl

theorem get_set (bits : List Bool) (u w : KeyUse) (b : Bool) :
    get (set bits u b) w = if u = w then b else get bits w := by
  have hindex : u.index = w.index ↔ u = w := ⟨index_inj, congrArg index⟩
  simp only [get, getD_set, hindex]

end KeyUse

/-! ## Names -/

namespace Content

theorem sameName_iff {a b : String} :
    sameName a b = true ↔ a.toList.map Char.toLower = b.toList.map Char.toLower := by
  simp [sameName]

theorem sameName_symm {a b : String} (h : sameName a b = true) : sameName b a = true :=
  sameName_iff.mpr (sameName_iff.mp h).symm

theorem sameName_trans {a b c : String} (hab : sameName a b = true) (hbc : sameName b c = true) :
    sameName a c = true :=
  sameName_iff.mpr ((sameName_iff.mp hab).trans (sameName_iff.mp hbc))

end Content

namespace AttributeKey

open Content

/-- All attributes, the nine of `use` included. -/
def all : List AttributeKey :=
  KeyUse.all.map .use ++ [.keyId, .purposes, .notBefore, .notAfter, .reason, .date, .number]

theorem mem_all (k : AttributeKey) : k ∈ all := by
  cases k with
  | use u => cases u <;> decide
  | _ => decide

/-- No two attributes `k` and `j` share a name. -/
theorem eq_of_sameName {k j : AttributeKey} (h : sameName k.name j.name = true) : k = j := by
  have hall : ∀ k ∈ all, ∀ j ∈ all, sameName k.name j.name = true → k = j := by decide +kernel
  exact hall k k.mem_all j j.mem_all h

/-- The values that the attribute may have. The value of `reason` is a code of 64 bits. -/
def Takes : AttributeKey → AttributeValue → Prop
  | use _, .boolean _ => True
  | keyId, .bytes _ => True
  | purposes, .oids _ => True
  | notBefore, .time _ => True
  | notAfter, .time _ => True
  | reason, .integer n => Int64.minValue.toInt ≤ n ∧ n ≤ Int64.maxValue.toInt
  | date, .time _ => True
  | number, .integer _ => True
  | _, _ => False

end AttributeKey

namespace Content

variable {c d : Content} {k : AttributeKey} {v : AttributeValue} {name : String}

/-- `Has c k`: the kind of the content `c` has the attribute `k`. -/
inductive Has : Content → AttributeKey → Prop
  | use (bits : List Bool) (u : KeyUse) : Has (keyUsage bits) (.use u)
  | keyId (keyId : Option Bytes) : Has (subjectKeyIdentifier keyId) .keyId
  | purposes (purposes : Option (List Oid)) : Has (extendedKeyUsage purposes) .purposes
  | notBefore (before after : Option Time) : Has (privateKeyUsage before after) .notBefore
  | notAfter (before after : Option Time) : Has (privateKeyUsage before after) .notAfter
  | reason (code : Int64) : Has (reasonCode code) .reason
  | date (date : Option Time) : Has (invalidityDate date) .date
  | number (base : Option Int) : Has (deltaCrlIndicator base) .number

theorem has_iff : c.Has k ↔ k ∈ c.keys := by
  constructor
  · intro h
    cases h with
    | use bits u => exact List.mem_map_of_mem (by cases u <;> decide)
    | _ => simp [keys]
  · intro h
    cases c with
    | keyUsage bits =>
      obtain ⟨u, -, rfl⟩ := List.mem_map.mp h
      exact .use bits u
    | privateKeyUsage before after =>
      obtain rfl | rfl := List.mem_pair.mp h
      · exact .notBefore before after
      · exact .notAfter before after
    | ocspNoCheck => cases h
    | unrecognized id value => cases h
    | _ =>
      cases List.mem_singleton.mp h
      constructor

/-- The names of the attributes of `c`. -/
def names (c : Content) : List String := c.keys.map AttributeKey.name

/-- The `name` is one of those of the attributes of `c`, up to ASCII case. -/
def Lists (c : Content) (name : String) : Prop := ∃ n ∈ c.names, sameName n name = true

/-- What a `name` is refused with that `c` does not list. The mark `ocspNoCheck` has no attributes
at all. -/
def refusal (c : Content) (name : String) : Error :=
  match c with
  | ocspNoCheck => .noAttributes "OCSPNoCheck"
  | c => .unknownAttribute (c.setName?.getD "") name

theorem lists_iff : c.Lists name ↔ ∃ k, c.Has k ∧ sameName k.name name = true := by
  simp [Lists, names, has_iff]

/-- The `name` stands for the attribute `k` that has it. -/
theorem key_eq_ok : c.key name = .ok k ↔ c.Has k ∧ sameName k.name name = true := by
  rw [has_iff]
  unfold key
  constructor
  · intro h
    split at h
    · cases h
    · split at h
      · rename_i j hj
        cases h
        exact ⟨List.mem_of_find?_eq_some hj, by simpa using List.find?_some hj⟩
      · cases h
  · rintro ⟨hk, hname⟩
    rw [if_neg (by simpa using List.ne_nil_of_mem hk)]
    split
    · rename_i j hj
      have hfound : sameName j.name name = true := by simpa using List.find?_some hj
      rw [AttributeKey.eq_of_sameName (sameName_trans hfound (sameName_symm hname))]
    · rename_i hnone
      exact absurd hname (List.find?_eq_none.mp hnone k hk)

/-- A `name` that is not listed is refused. -/
theorem key_eq_refusal (hc : c.setName? ≠ none) (hname : ¬c.Lists name) :
    c.key name = .error (c.refusal name) := by
  have hnone : c.keys.find? (sameName ·.name name) = none :=
    List.find?_eq_none.mpr fun k hk hsame => hname (lists_iff.mpr ⟨k, has_iff.mpr hk, hsame⟩)
  unfold key
  rw [hnone]
  cases c <;> first | rfl | exact absurd rfl hc

theorem key_congr (hset : d.setName? = c.setName?) (hkeys : d.keys = c.keys) :
    d.key name = c.key name := by
  rw [key, key, hset, hkeys]

/-! ## Values -/

/-- The value of an attribute that is not set, by the kind of the content: `absent` for most. -/
def emptyValue : Content → AttributeValue
  | keyUsage _ => .boolean false
  | reasonCode _ => .integer 0
  | _ => .absent

/-- `d` is of the same kind as `c`, and its attributes are the same but for `k`, which has the value
`v`. -/
structure Updates (c : Content) (k : AttributeKey) (v : AttributeValue) (d : Content) : Prop where
  oid : d.oid = c.oid
  setName? : d.setName? = c.setName?
  keys : d.keys = c.keys
  lookup : ∀ j, c.Has j → d.lookup j = if k = j then v else c.lookup j

/-- A code `n` of 64 bits is kept as it is. -/
theorem exists_codeOf {n : Int} (h : AttributeKey.reason.Takes (.integer n)) :
    ∃ code, codeOf n = .ok code ∧ code.toInt = n := by
  refine ⟨Int64.ofInt n, if_pos h, ?_⟩
  exact Int64.toInt_ofInt_of_le h.1 (Int.lt_of_le_of_lt h.2 (by decide))

theorem updates_set (bits : List Bool) (u : KeyUse) (b : Bool) :
    (keyUsage bits).Updates (.use u) (.boolean b) (keyUsage (KeyUse.set bits u b)) := by
  refine ⟨rfl, rfl, rfl, fun j hj => ?_⟩
  cases hj with
  | use _ w =>
    simp only [lookup, KeyUse.get_set, AttributeKey.use.injEq]
    split <;> rfl

/-- **Storing.** A value `v` that the attribute `k` may have replaces its value; any other is
refused. -/
theorem store_spec (hk : c.Has k) (v : AttributeValue) :
    (k.Takes v ∧ ∃ d, c.store k v = .ok d ∧ c.Updates k v d) ∨
      (¬k.Takes v ∧ ∃ a, c.store k v = .error (.invalidInput a)) := by
  cases hk with
  | use bits u =>
    cases v with
    | boolean b => exact .inl ⟨trivial, _, rfl, updates_set bits u b⟩
    | _ => exact .inr ⟨id, _, rfl⟩
  | reason code =>
    cases v with
    | integer n =>
      have hstore : (reasonCode code).store .reason (.integer n) =
          codeOf n >>= fun code => .ok (reasonCode code) := rfl
      rw [hstore]
      by_cases h : AttributeKey.reason.Takes (.integer n)
      · obtain ⟨code', hcode, htoInt⟩ := exists_codeOf h
        rw [hcode]
        refine .inl ⟨h, _, rfl, rfl, rfl, rfl, fun j hj => ?_⟩
        cases hj
        exact congrArg AttributeValue.integer htoInt
      · rw [show codeOf n = .error (.invalidInput (.reasonRange n)) from if_neg h]
        exact .inr ⟨h, _, rfl⟩
    | _ => exact .inr ⟨id, _, rfl⟩
  | _ =>
    -- what is left are optional values of one type each
    cases v <;> first
      | exact .inr ⟨id, _, rfl⟩
      | exact .inl ⟨trivial, _, rfl, rfl, rfl, rfl, fun j hj => by cases hj <;> rfl⟩

/-- **Clearing.** The attribute `k` is emptied, and no other. -/
theorem updates_clear (hk : c.Has k) : c.Updates k c.emptyValue (c.clear k) := by
  cases hk with
  | use bits u => exact updates_set bits u false
  | _ => exact ⟨rfl, rfl, rfl, fun j hj => by cases hj <;> rfl⟩

end Content

end Pkix
