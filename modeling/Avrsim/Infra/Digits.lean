import Mathlib.Algebra.Order.Ring.Nat
import Mathlib.Tactic.Ring

/-!
# Digits

A number as digits of a base, and the number that digits stand for. Digits are counted from the
least significant one.

* `value` — what the first digits stand for
* `value_digits` — the digits of a number stand for it
* `foldl_digits` — digits read from the other end, as a machine does that shifts and adds
-/

namespace Infra.Digits

/-- The number that the first `n` digits stand for. -/
def value (base : Nat) (digit : Nat → Nat) : Nat → Nat
  | 0 => 0
  | n + 1 => value base digit n + digit n * base ^ n

theorem value_congr {base : Nat} {digit digit' : Nat → Nat} :
    ∀ {n : Nat}, (∀ i < n, digit i = digit' i) → value base digit n = value base digit' n
  | 0, _ => rfl
  | n + 1, h => by
    rw [value, value, h n (Nat.lt_succ_self n),
      value_congr fun i hi => h i (Nat.lt_succ_of_lt hi)]

/-- The digits of a number stand for it, up to the digits there are. -/
theorem value_digits (base word : Nat) :
    ∀ n : Nat, value base (fun i => word / base ^ i % base) n = word % base ^ n
  | 0 => by rw [value, Nat.pow_zero, Nat.mod_one]
  | n + 1 => by rw [value, value_digits base word n, Nat.mod_pow_succ, Nat.mul_comm (base ^ n)]

/-- More digits do not change the last ones. -/
theorem value_mod (base : Nat) (digit : Nat → Nat) {k n : Nat} (h : k ≤ n) :
    value base digit n % base ^ k = value base digit k % base ^ k := by
  induction n, h using Nat.le_induction with
  | base => rfl
  | succ n hle ih =>
    obtain ⟨d, rfl⟩ := Nat.exists_eq_add_of_le hle
    have hpow : digit (k + d) * base ^ (k + d) = base ^ k * (digit (k + d) * base ^ d) := by ring
    rw [value, hpow, Nat.add_mul_mod_self_left, ih]

theorem foldl_reverse_range (base : Nat) (digit : Nat → Nat) :
    ∀ (n word : Nat), (List.range n).reverse.foldl (fun word i => base * word + digit i) word
      = word * base ^ n + value base digit n
  | 0, word => by simp [value]
  | n + 1, word => by
    rw [List.range_succ, List.reverse_append, List.reverse_singleton, List.singleton_append,
      List.foldl_cons, foldl_reverse_range base digit n, value]
    ring

/-- Digits read from the most significant one on. -/
theorem foldl_digits (base : Nat) (digit : Nat → Nat) (n : Nat) :
    (List.range n).foldl (fun word i => base * word + digit (n - 1 - i)) 0
      = value base digit n := by
  have hreverse : (List.range n).reverse = (List.range n).map fun i => n - 1 - i := by
    rw [List.range_eq_range', List.reverse_range', Nat.zero_add, List.range_eq_range']
  have h := foldl_reverse_range base digit n 0
  rw [hreverse, List.foldl_map, Nat.zero_mul, Nat.zero_add] at h
  exact h

end Infra.Digits
