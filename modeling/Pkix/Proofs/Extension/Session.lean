import Pkix.Extension.Session
import Pkix.Proofs.Extension.Attributes

/-!
# Extensions are stores of attributes

Whatever calls have been made on an extension of a known kind, the next one does what a store of
named values does.

* `TypedExtension.Changed`: one named attribute has another value and all else is the same;
  `TypedExtension.set_spec`, `TypedExtension.delete_spec`: this is what set and delete do.
* `TypedExtension.IsStore`: what is promised of the next call.
* `TypedExtension.on_eq_or_changed`: what one call can do to the extension.
* `TypedExtension.kept_after`, `TypedExtension.get_after`: what a session leaves alone.
* `TypedExtension.store_over_sessions`: the promises hold at every point of every session.
-/

namespace Pkix

open Content

/-! ## Calls -/

namespace Call

/-- The call may change the attribute with the `name`. -/
def Writes (name : String) : Call → Prop
  | get _ => False
  | set n _ => sameName n name = true
  | delete n => sameName n name = true

variable (e : TypedExtension) (name : String)

theorem on_get : (get name).on e = ((e.get name).map some, e) := by
  show (ExceptT.bindCont (fun v => (pure (some v) : ExceptT Error (StateM TypedExtension) _))
    (e.get name)).run e = _
  cases e.get name <;> rfl

/-- A `change` that fails is not made. -/
theorem run_modify (change : TypedExtension → Except Error TypedExtension) :
    (ExceptT.bindCont (fun e' => (do
        modify fun _ => e'
        return none : ExceptT Error (StateM TypedExtension) (Option AttributeValue)))
      (change e)).run e = ((change e).map fun _ => none, (change e).toOption.getD e) := by
  cases change e <;> rfl

theorem on_set (v : AttributeValue) :
    (set name v).on e = ((e.set name v).map fun _ => none, (e.set name v).toOption.getD e) :=
  run_modify e (·.set name v)

theorem on_delete :
    (delete name).on e = ((e.delete name).map fun _ => none, (e.delete name).toOption.getD e) :=
  run_modify e (·.delete name)

variable {e}

theorem getD_of_map_eq_error {r : Except Error TypedExtension}
    {f : TypedExtension → Option AttributeValue} {x : Error} (h : r.map f = .error x) :
    r.toOption.getD e = e := by
  cases r with
  | error y => rfl
  | ok e' => cases h

/-- A call `c` that is refused leaves the extension `e` as it is. -/
theorem on_eq_self {c : Call} {x : Error} (h : (c.on e).1 = .error x) : (c.on e).2 = e := by
  cases c with
  | get name => rw [on_get]
  | set name v =>
    rw [on_set] at h ⊢
    exact getD_of_map_eq_error h
  | delete name =>
    rw [on_delete] at h ⊢
    exact getD_of_map_eq_error h

end Call

/-! ## One call -/

namespace TypedExtension

/-- All but the values of attributes is the same in `e` and `e'`. -/
structure Kept (e e' : TypedExtension) : Prop where
  critical : e'.critical = e.critical
  oid : e'.content.oid = e.content.oid
  setName? : e'.content.setName? = e.content.setName?
  keys : e'.content.keys = e.content.keys

/-- All but the value of one attribute, with the `name`, is the same in `e` and `e'`; in `e'` its
value is `v`. -/
structure Changed (e : TypedExtension) (name : String) (v : AttributeValue) (e' : TypedExtension) :
    Prop extends Kept e e' where
  get : ∀ other, e'.get other = if sameName name other then .ok v else e.get other

variable {e e' : TypedExtension} {name : String} {k : AttributeKey} {v : AttributeValue}

theorem Kept.rfl : e.Kept e := ⟨.refl _, .refl _, .refl _, .refl _⟩

theorem Kept.trans {e'' : TypedExtension} (h : e.Kept e') (h' : e'.Kept e'') : e.Kept e'' where
  critical := h'.critical.trans h.critical
  oid := h'.oid.trans h.oid
  setName? := h'.setName?.trans h.setName?
  keys := h'.keys.trans h.keys

section

variable (hk : e.content.key name = .ok k)

include hk

theorem get_of_key : e.get name = .ok (e.content.lookup k) := by
  rw [get, hk]
  rfl

theorem set_of_key (v : AttributeValue) :
    e.set name v = (e.content.store k v).map fun d => { e with content := d } := by
  rw [set, hk]
  show (e.content.store k v >>= fun d => .ok { e with content := d }) = _
  cases e.content.store k v <;> rfl

theorem delete_of_key : e.delete name = .ok { e with content := e.content.clear k } := by
  rw [delete, hk]
  rfl

end

section

variable {x : Error} (h : e.content.key name = .error x)

include h

theorem get_of_error : e.get name = .error x := by
  rw [get, h]
  rfl

theorem set_of_error (v : AttributeValue) : e.set name v = .error x := by
  rw [set, h]
  rfl

theorem delete_of_error : e.delete name = .error x := by
  rw [delete, h]
  rfl

end

/-- A name that `key` refuses is refused to every call `c`. -/
theorem on_of_error {c : Call} {x : Error} (h : e.content.key c.name = .error x) :
    c.on e = (.error x, e) := by
  cases c with
  | get name =>
    rw [Call.on_get, show e.get name = .error x from get_of_error h]
    rfl
  | set name v =>
    rw [Call.on_set, show e.set name v = .error x from set_of_error h v]
    rfl
  | delete name =>
    rw [Call.on_delete, show e.delete name = .error x from delete_of_error h]
    rfl

/-- Where a content is updated to `d`, the attribute with each spelling of the `name` has the value
`v`. -/
theorem changed_of_updates {d : Content} (hk : e.content.key name = .ok k)
    (h : e.content.Updates k v d) : e.Changed name v { e with content := d } := by
  refine ⟨⟨rfl, h.oid, h.setName?, h.keys⟩, fun other => ?_⟩
  have hsame : sameName k.name name = true := (key_eq_ok.mp hk).2
  have hkey : d.key other = e.content.key other := key_congr h.setName? h.keys
  cases hother : e.content.key other with
  | error x =>
    have hname : ¬sameName name other = true := by
      intro hname
      rw [key_eq_ok.mpr ⟨(key_eq_ok.mp hk).1, sameName_trans hsame hname⟩] at hother
      cases hother
    rw [if_neg hname, get_of_error hother, get_of_error (hkey.trans hother)]
  | ok j =>
    obtain ⟨hj, hjother⟩ := key_eq_ok.mp hother
    have hiff : k = j ↔ sameName name other = true := by
      constructor
      · rintro rfl
        exact sameName_trans (sameName_symm hsame) hjother
      · intro hname
        exact AttributeKey.eq_of_sameName
          (sameName_trans (sameName_trans hsame hname) (sameName_symm hjother))
    rw [get_of_key (hkey.trans hother), get_of_key hother, h.lookup j hj]
    simp only [hiff]
    split <;> rfl

/-- **Set.** A value `v` that the attribute `k` may have is stored, any other is refused. -/
theorem set_spec (hk : e.content.key name = .ok k) (v : AttributeValue) :
    (k.Takes v ∧ ∃ e', e.set name v = .ok e' ∧ e.Changed name v e') ∨
      (¬k.Takes v ∧ ∃ a, e.set name v = .error (.invalidInput a)) := by
  rw [set_of_key hk]
  obtain ⟨htakes, d, hd, hupdates⟩ | ⟨htakes, a, ha⟩ := store_spec (key_eq_ok.mp hk).1 v
  · rw [hd]
    exact .inl ⟨htakes, _, rfl, changed_of_updates hk hupdates⟩
  · rw [ha]
    exact .inr ⟨htakes, a, rfl⟩

/-- **Delete.** The attribute with the `name` is emptied. -/
theorem delete_spec (hk : e.content.key name = .ok k) :
    ∃ e', e.delete name = .ok e' ∧ e.Changed name e.content.emptyValue e' :=
  ⟨_, delete_of_key hk, changed_of_updates hk (updates_clear (key_eq_ok.mp hk).1)⟩

/-- A call `c` changes at most the attribute that it `Writes`. -/
theorem on_eq_or_changed (c : Call) (e : TypedExtension) :
    (c.on e).2 = e ∨ ∃ v, e.Changed c.name v (c.on e).2 ∧
      ∀ name, sameName c.name name = true → c.Writes name := by
  cases hkey : e.content.key c.name with
  | error x => exact .inl (by rw [on_of_error hkey])
  | ok k =>
    cases c with
    | get name => exact .inl (by rw [Call.on_get])
    | set name v =>
      rw [Call.on_set]
      obtain ⟨-, e', he', hchanged⟩ | ⟨-, a, ha⟩ := set_spec hkey v
      · rw [show e.set name v = .ok e' from he']
        exact .inr ⟨v, hchanged, fun _ => id⟩
      · exact .inl (by rw [show e.set name v = .error _ from ha]; rfl)
    | delete name =>
      rw [Call.on_delete]
      obtain ⟨e', he', hchanged⟩ := delete_spec hkey
      rw [show e.delete name = .ok e' from he']
      exact .inr ⟨_, hchanged, fun _ => id⟩

/-- What a store of named values promises of the next call on `e`. -/
structure IsStore (e : TypedExtension) : Prop where
  /-- A name that is not listed is refused, whatever the call `c` has with it. -/
  unlisted : ∀ c : Call, ¬e.content.Lists c.name → c.on e = (.error (e.content.refusal c.name), e)
  /-- The value of a listed `name` can be had. -/
  gets : ∀ name, e.content.Lists name →
    ∃ v, e.get name = .ok v ∧ (Call.get name).on e = (.ok (some v), e)
  /-- A value `v` of the right kind is what is then had by the `name`, however it is spelt, and the
  other names keep theirs. -/
  sets : ∀ k name v, e.content.Has k → sameName k.name name = true → k.Takes v →
    ∃ e', (Call.set name v).on e = (.ok none, e') ∧ e.Changed name v e'
  /-- Any other value `v` is refused, but not for the name. -/
  misfits : ∀ k name v, e.content.Has k → sameName k.name name = true → ¬k.Takes v →
    ∃ a, (Call.set name v).on e = (.error (.invalidInput a), e)
  /-- What is deleted by its `name` is empty, and the other names keep their values. -/
  deletes : ∀ name, e.content.Lists name →
    ∃ e', (Call.delete name).on e = (.ok none, e') ∧ e.Changed name e.content.emptyValue e'
  /-- A call `c` that is refused changes nothing. -/
  refused : ∀ (c : Call) x, (c.on e).1 = .error x → (c.on e).2 = e

/-- An extension `e` of a known kind is a store. -/
theorem isStore (hkind : e.content.setName? ≠ none) : e.IsStore where
  unlisted c hname := on_of_error (key_eq_refusal hkind hname)
  gets name hname := by
    obtain ⟨k, hk⟩ := lists_iff.mp hname
    have hget := get_of_key (key_eq_ok.mpr hk)
    exact ⟨_, hget, by rw [Call.on_get, hget]; rfl⟩
  sets k name v hk hname htakes := by
    obtain ⟨-, e', he', hchanged⟩ | ⟨hnot, -⟩ := set_spec (key_eq_ok.mpr ⟨hk, hname⟩) v
    · exact ⟨e', by rw [Call.on_set, he']; rfl, hchanged⟩
    · exact absurd htakes hnot
  misfits k name v hk hname htakes := by
    obtain ⟨hyes, -⟩ | ⟨-, a, ha⟩ := set_spec (key_eq_ok.mpr ⟨hk, hname⟩) v
    · exact absurd hyes htakes
    · exact ⟨a, by rw [Call.on_set, ha]; rfl⟩
  deletes name hname := by
    obtain ⟨k, hk⟩ := lists_iff.mp hname
    obtain ⟨e', he', hchanged⟩ := delete_spec (key_eq_ok.mpr hk)
    exact ⟨e', by rw [Call.on_delete, he']; rfl, hchanged⟩
  refused _ _ := Call.on_eq_self

theorem kept_on (c : Call) (e : TypedExtension) : e.Kept (c.on e).2 := by
  obtain h | ⟨v, hchanged, -⟩ := on_eq_or_changed c e
  · rw [h]
    exact .rfl
  · exact hchanged.toKept

/-- A call `c` leaves the attributes alone that it does not write. -/
theorem get_on {c : Call} (h : ¬c.Writes name) : (c.on e).2.get name = e.get name := by
  obtain hsame | ⟨v, hchanged, hwrites⟩ := on_eq_or_changed c e
  · rw [hsame]
  · rw [hchanged.get, if_neg fun hname => h (hwrites name hname)]

/-! ## Sessions -/

theorem session_cons (e : TypedExtension) (c : Call) (calls : List Call) :
    e.session (c :: calls) =
      ((c.on e).1 :: ((c.on e).2.session calls).1, ((c.on e).2.session calls).2) :=
  rfl

theorem session_append (e : TypedExtension) (before rest : List Call) :
    e.session (before ++ rest) =
      ((e.session before).1 ++ ((e.after before).session rest).1,
        ((e.after before).session rest).2) := by
  induction before generalizing e with
  | nil => rfl
  | cons c before ih =>
    rw [List.cons_append, session_cons, ih]
    rfl

theorem length_session (e : TypedExtension) (calls : List Call) :
    (e.session calls).1.length = calls.length := by
  induction calls generalizing e with
  | nil => rfl
  | cons c calls ih => exact congrArg (· + 1) (ih _)

theorem after_append (e : TypedExtension) (before rest : List Call) :
    e.after (before ++ rest) = (e.after before).after rest := by
  rw [after, session_append]
  rfl

/-- A session of `calls` changes nothing but values of attributes. -/
theorem kept_after (e : TypedExtension) (calls : List Call) : e.Kept (e.after calls) := by
  induction calls generalizing e with
  | nil => exact .rfl
  | cons c calls ih => exact (kept_on c e).trans (ih _)

/-- A session leaves the attribute with the `name` alone if none of its `calls` writes it. -/
theorem get_after {calls : List Call} (h : ∀ c ∈ calls, ¬c.Writes name) :
    (e.after calls).get name = e.get name := by
  induction calls generalizing e with
  | nil => rfl
  | cons c calls ih =>
    obtain ⟨hc, hcalls⟩ := List.forall_mem_cons.mp h
    exact (ih hcalls).trans (get_on hc)

/-- **Extensions are stores over whole sessions.** At every point of a session of `calls` on an
extension `e` of a known kind, the answer to the next call is the one that a store gives (`IsStore`)
and the extension changes as a store does; whether it is critical, its identifier and the names of
its attributes never change (`Kept`), and an attribute keeps its value for as long as no call
`Writes` it. -/
theorem store_over_sessions (hkind : e.content.setName? ≠ none) (calls : List Call) :
    (e.after calls).IsStore ∧ e.Kept (e.after calls) ∧
    (∀ c rest, (e.session (calls ++ c :: rest)).1[calls.length]? = some (c.on (e.after calls)).1 ∧
      e.after (calls ++ c :: rest) = (c.on (e.after calls)).2.after rest) ∧
    ∀ rest name, (∀ c ∈ rest, ¬c.Writes name) →
      (e.after (calls ++ rest)).get name = (e.after calls).get name := by
  have hkept := e.kept_after calls
  refine ⟨isStore (by rwa [hkept.setName?]), hkept, fun c rest => ⟨?_, ?_⟩, fun rest name h => ?_⟩
  · have hlen := length_session e calls
    rw [session_append, List.getElem?_append_right (Nat.le_of_eq hlen), hlen, Nat.sub_self]
    rfl
  · rw [after_append]
    rfl
  · rw [after_append, get_after h]

/-- `store_over_sessions` at a key usage: after a call by a name that it does not have, a bit is set
by another spelling. -/
theorem exists_store_over_sessions_keyUsage :
    ∃ e', (Call.set "Crl_Sign" (.boolean true)).on
        ((keyUsage []).after [.set "colour" (.integer 7)]) = (.ok none, e') ∧
      e'.critical = true ∧ e'.get "crl_sign" = .ok (.boolean true) ∧
      e'.get "key_agreement" = (keyUsage []).get "key_agreement" := by
  have hkind : (keyUsage []).content.setName? ≠ none := Option.some_ne_none _
  obtain ⟨hstore, hkept, -, -⟩ := store_over_sessions hkind [.set "colour" (.integer 7)]
  have hframe := (store_over_sessions hkind []).2.2.2 [.set "colour" (.integer 7)]
    "key_agreement" (by simp [Call.Writes]; decide +kernel)
  have hkeys : ((keyUsage []).after [.set "colour" (.integer 7)]).content.Has (.use .crlSign) :=
    has_iff.mpr (by rw [hkept.keys]; decide)
  obtain ⟨e', he', hchanged⟩ := hstore.sets (.use .crlSign) "Crl_Sign" (.boolean true) hkeys
    (by decide +kernel) trivial
  refine ⟨e', he', ?_, ?_, ?_⟩
  · rw [hchanged.critical, hkept.critical]
    rfl
  · rw [hchanged.get, if_pos (by decide +kernel)]
  · rw [hchanged.get, if_neg (by decide +kernel)]
    exact hframe

end TypedExtension

end Pkix
