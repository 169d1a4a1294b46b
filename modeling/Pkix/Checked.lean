import Pkix.Bytes
import Pkix.Error

/-!
# Indices that may be out of range

What is computed with indices into octets comes to a value or an error, or it stops without either
because an index or the result of an operation is out of range.

* `Checked`: such a computation. `run` is `none` where it stops.
* `Checked.require`: what there is no going on without.
* `Checked.sum?`, `Checked.difference?`: arithmetic on words of 64 bits.
* `Checked.slice?`: the octets between two indices.
* `Checked.reserve?`: room for elements that are still to come.
-/

namespace Pkix

/-- A computation that stops, as `none`, where an index is out of range. -/
abbrev Checked := ExceptT Error Option

namespace Checked

/-- The result `x`, which does not stop. -/
def ofResult {α : Type} (x : Except Error α) : Checked α := ExceptT.mk (some x)

instance : MonadLift (Except Error) Checked := ⟨ofResult⟩

/-- Stops where there is nothing in `o`. -/
def require {α : Type} (o : Option α) : Checked α := ExceptT.mk (o.map .ok)

/-- The sum of `a` and `b`, if a word holds it. -/
def sum? (a b : Nat) : Option Nat := if a + b < UInt64.size then some (a + b) else none

/-- The difference of `a` and `b`, if it is not negative. -/
def difference? (a b : Nat) : Option Nat := if b ≤ a then some (a - b) else none

/-- The octets of `b` from the index `start` up to `stop`. -/
def slice? (b : Bytes) (start stop : Nat) : Option Bytes :=
  if start ≤ stop ∧ stop ≤ b.length then some ((b.drop start).take (stop - start)) else none

/-- Room for `count` elements of 32 octets each. No allocation has 2 ^ 63 octets or more. -/
def reserve? (count : Nat) : Option Unit := if count * 32 < 1 <<< 63 then some () else none

theorem sum?_eq_some {a b c : Nat} : sum? a b = some c ↔ a + b < UInt64.size ∧ c = a + b := by
  rw [sum?, Option.ite_none_right_eq_some, Option.some.injEq, @eq_comm _ c]

theorem difference?_eq_some {a b c : Nat} : difference? a b = some c ↔ b ≤ a ∧ c = a - b := by
  rw [difference?, Option.ite_none_right_eq_some, Option.some.injEq, @eq_comm _ c]

theorem slice?_eq_some {b part : Bytes} {start stop : Nat} :
    slice? b start stop = some part ↔
      start ≤ stop ∧ stop ≤ b.length ∧ part = (b.drop start).take (stop - start) := by
  rw [slice?, Option.ite_none_right_eq_some, Option.some.injEq, and_assoc, @eq_comm _ part]

/-! ## What comes of a computation -/

section

variable {α β : Type} {x : Checked α} {f : α → Checked β}

theorem run_liftM (r : Except Error α) : (liftM r : Checked α).run = some (r.map id) := by
  cases r <;> rfl

theorem run_bind (x : Checked α) (f : α → Checked β) :
    (x >>= f).run = x.run.bind fun r => match r with
      | .ok a => (f a).run
      | .error e => some (.error e) := by
  show x.run.bind _ = _
  congr 1
  funext r
  cases r <;> rfl

/-- A value `b` is one of the last step, with the value `a` of the step before. -/
theorem run_bind_eq_ok {b : β} : (x >>= f).run = some (.ok b) ↔
    ∃ a, x.run = some (.ok a) ∧ (f a).run = some (.ok b) := by
  rw [run_bind]
  cases hx : x.run with
  | none => simp
  | some r => cases r <;> simp

theorem run_require_eq_ok {o : Option α} {a : α} :
    (require o).run = some (.ok a) ↔ o = some a := by
  cases o <;> simp [require, ExceptT.run, ExceptT.mk]

/-- A step `x` that comes to a value does not stop what comes after it. -/
theorem run_bind_of_ok {a : α} (hx : x.run = some (.ok a)) : (x >>= f).run = (f a).run := by
  rw [run_bind, hx]
  rfl

/-- Steps that come to what other steps come to, in other forms (`k` and `l`), do so one after the
other. -/
theorem run_bind_map {γ δ : Type} {r : Except Error γ} {g : γ → Except Error δ} {k : γ → α}
    {l : δ → β} (hx : x.run = some (r.map k))
    (hf : ∀ c, r = .ok c → (f (k c)).run = some ((g c).map l)) :
    (x >>= f).run = some ((r >>= g).map l) := by
  rw [run_bind, hx]
  cases r with
  | error e => rfl
  | ok c => exact hf c rfl

end

end Checked

end Pkix
