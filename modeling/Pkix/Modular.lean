/-!
# Arithmetic modulo a number

* `Modular.pow`: powers by squaring; `Modular.pow_eq` says that they are the remainders of the
  powers.
* `Modular.inverse?`: the inverse of a number that has no divisor in common with the modulus.
* `Modular.sub`: differences of remainders.
-/

namespace Pkix.Modular

/-- The remainder of `b ^ e` modulo `m`. -/
def pow (m b e : Nat) : Nat :=
  if e = 0 then 1 % m
  else
    let squares := pow m (b * b % m) (e / 2)
    if e % 2 = 1 then b * squares % m else squares
termination_by e
decreasing_by omega

theorem pow_eq (m b e : Nat) : pow m b e = Nat.pow b e % m := by
  change pow m b e = b ^ e % m
  fun_induction pow m b e with
  | case1 => simp
  | case2 b e _ squares hodd ih =>
    have hs : squares = (b * b) ^ (e / 2) % m := ih.trans (Nat.pow_mod ..).symm
    have he : b ^ e = b * (b * b) ^ (e / 2) := by
      rw [← Nat.pow_two, ← Nat.pow_mul, Nat.mul_comm, ← Nat.pow_succ]
      congr 1
      omega
    rw [hs, he, Nat.mul_mod, Nat.mod_mod, ← Nat.mul_mod]
  | case3 b e _ squares heven ih =>
    have hs : squares = (b * b) ^ (e / 2) % m := ih.trans (Nat.pow_mod ..).symm
    have he : b ^ e = (b * b) ^ (e / 2) := by
      rw [← Nat.pow_two, ← Nat.pow_mul]
      congr 1
      omega
    rw [hs, he]

/-- Runs the division algorithm on two remainders. Their coefficients say which multiple of the
number that is inverted each remainder is, up to multiples of the modulus. Answers the last
remainder and its coefficient. -/
def divide (r s : Nat) (x y : Int) : Nat × Int :=
  if s = 0 then (r, x) else divide s (r % s) y (x - (r / s : Nat) * y)
termination_by s
decreasing_by exact Nat.mod_lt _ (by omega)

/-- The inverse of `a` modulo `m`. -/
def inverse? (m a : Nat) : Option Nat :=
  match divide m (a % m) 0 1 with
  | (1, x) => some (x % m).toNat
  | _ => none

/-- The inverse of `a` modulo a prime that does not divide it. -/
def inverse (m a : Nat) : Nat := (inverse? m a).getD 0

/-- The difference of two remainders modulo `m`. -/
def sub (m a b : Nat) : Nat := (a + (m - b % m)) % m

end Pkix.Modular
