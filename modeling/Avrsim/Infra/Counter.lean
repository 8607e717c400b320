import Mathlib.Algebra.Order.Ring.Nat
import Mathlib.Data.Nat.Basic

/-!
# Wrapping counters

A 64-bit counter is read as `c 0, c 1, c 2, …`. A single difference of two readings only knows
how far the counter went modulo `2 ^ 64`; `consumed` adds up the exact advances.
-/

namespace Infra.Counter

/-- How far a counter has advanced after `k` steps, wraps included. -/
def consumed (c : Nat → UInt64) : Nat → Nat
  | 0 => 0
  | k + 1 => consumed c k + (c (k + 1) - c k).toNat

/-- Differences of readings add up modulo the word size. -/
theorem toNat_sub_add (a b c : UInt64) :
    (c - a).toNat = ((b - a).toNat + (c - b).toNat) % 2 ^ 64 := by
  rw [← UInt64.toNat_add]
  congr 1
  grind

theorem toNat_sub_start (c : Nat → UInt64) : ∀ k : Nat,
    (c k - c 0).toNat = consumed c k % 2 ^ 64
  | 0 => by simp [consumed]
  | k + 1 => by
    rw [toNat_sub_add (c 0) (c k) (c (k + 1)), toNat_sub_start c k, consumed, Nat.mod_add_mod]

/-- Short of a full turn the difference of the readings is what was consumed. -/
theorem toNat_sub_start_of_lt {c : Nat → UInt64} {k : Nat} (h : consumed c k < 2 ^ 64) :
    (c k - c 0).toNat = consumed c k := by
  rw [toNat_sub_start, Nat.mod_eq_of_lt h]

theorem consumed_mono (c : Nat → UInt64) {j k : Nat} (h : j ≤ k) :
    consumed c j ≤ consumed c k := by
  induction h with
  | refl => exact Nat.le_refl _
  | step _ ih => exact Nat.le_trans ih (Nat.le_add_right _ _)

theorem consumed_add (c : Nat → UInt64) (k : Nat) : ∀ j : Nat,
    consumed c (k + j) = consumed c k + consumed (fun i => c (k + i)) j
  | 0 => rfl
  | j + 1 => by rw [← Nat.add_assoc, consumed, consumed_add c k j, consumed, Nat.add_assoc]; rfl

/-- A counter that moves at every step consumes at least one a step. -/
theorem le_consumed {c : Nat → UInt64} : ∀ {k : Nat}, (∀ j < k, c (j + 1) ≠ c j) →
    k ≤ consumed c k
  | 0, _ => Nat.zero_le _
  | k + 1, h => by
    have hk : k ≤ consumed c k := le_consumed fun j hj => h j (Nat.lt_succ_of_lt hj)
    have hmove : (c (k + 1) - c k).toNat ≠ 0 := by
      intro h0
      exact h k (Nat.lt_succ_self k) (by
        have hz : c (k + 1) - c k = 0 := UInt64.toNat_inj.mp h0
        grind)
    rw [consumed]
    omega

/-- A counter that reads more after every step is never behind the steps, and has not wrapped. -/
theorem add_le_of_rising {c : Nat → UInt64} : ∀ {k : Nat}, (∀ j < k, c j < c (j + 1)) →
    (c 0).toNat + k ≤ (c k).toNat
  | 0, _ => Nat.le_refl _
  | k + 1, h => by
    have hk : (c 0).toNat + k ≤ (c k).toNat :=
      add_le_of_rising fun j hj => h j (Nat.lt_succ_of_lt hj)
    have hlast : (c k).toNat < (c (k + 1)).toNat := h k (Nat.lt_succ_self k)
    omega

end Infra.Counter
