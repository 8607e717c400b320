import Avrsim.Infra.Counter
import Avrsim.Infra.Loop

/-!
# Loops with a budget

A loop that goes on while a wrapping counter has not gone as far as a budget, and while a second
condition holds that knows nothing of the budget. The budget bounds the number of passes as well,
so that the loop ends on a counter that does not move.

* `passesWithin` — the number of passes
* `passesWithin_of_le` — a loop that ends for the other reason has the same passes with more budget
* `passesWithin_weaken` — a loop that runs out of budget may as well forget the other reason
* `passesWithin_of_spent` — what a loop has spent is a budget for its passes
* `passesWithin_add` — a budget may be spent in two instalments
-/

namespace Infra.Budget

open Infra.Loop Infra.Counter

variable {σ : Type*} (clock : σ → UInt64) (stay : σ → Bool) (f : σ → σ)

/-- The counter has gone less far than the budget since it read `start`, and `stay` holds. -/
def within (budget start : UInt64) (s : σ) : Bool := decide (clock s - start < budget) && stay s

/-- How many passes the loop makes from `s`. -/
def passesWithin (budget : UInt64) (s : σ) : Nat :=
  passes (within clock stay budget (clock s)) f budget.toNat s

/-- How far the counter goes in the first `k` passes, wraps included. -/
def spentIn (s : σ) (k : Nat) : Nat := consumed (fun j => clock (f^[j] s)) k

/-- After `k` passes both bounds are open. -/
def OpenAfter (budget : UInt64) (s : σ) (k : Nat) : Prop :=
  k < budget.toNat ∧ clock (f^[k] s) - clock s < budget

/-- The counter moves at every pass. -/
def Moves : Prop := ∀ s : σ, stay s = true → clock (f s) ≠ clock s

theorem spentIn_add (s : σ) (k j : Nat) :
    spentIn clock f s (k + j) = spentIn clock f s k + spentIn clock f (f^[k] s) j := by
  have hiter : ∀ i, clock (f^[k + i] s) = clock (f^[i] (f^[k] s)) := by
    intro i
    rw [Nat.add_comm, Function.iterate_add_apply]
  unfold spentIn
  rw [consumed_add]
  simp only [hiter]

variable {clock stay f}

theorem within_iff {budget start : UInt64} {s : σ} :
    within clock stay budget start s = true ↔ clock s - start < budget ∧ stay s = true := by
  simp [within]

/-- Short of a full turn the difference of the readings is what was spent. -/
theorem toNat_elapsed {s : σ} {k : Nat} (h : spentIn clock f s k < 2 ^ 64) :
    (clock (f^[k] s) - clock s).toNat = spentIn clock f s k :=
  toNat_sub_start_of_lt (c := fun j => clock (f^[j] s)) h

/-! ## Where the loop stops -/

theorem passesWithin_le (budget : UInt64) (s : σ) :
    passesWithin clock stay f budget s ≤ budget.toNat :=
  passes_le _ _ _ _

/-- Before every pass the budget is open, and `stay` holds. -/
theorem before_pass {budget : UInt64} {s : σ} {j : Nat}
    (hj : j < passesWithin clock stay f budget s) :
    clock (f^[j] s) - clock s < budget ∧ stay (f^[j] s) = true :=
  within_iff.mp (go_of_lt_passes _ _ _ _ hj)

/-- The loop stops at its bound on the passes, on its budget, or because `stay` does not hold. -/
theorem after_passes {budget : UInt64} {s : σ}
    (hlt : passesWithin clock stay f budget s < budget.toNat)
    (hstay : stay (f^[passesWithin clock stay f budget s] s) = true) :
    budget ≤ clock (f^[passesWithin clock stay f budget s] s) - clock s := by
  have hgo := not_go_of_passes_lt _ _ _ _ hlt
  by_contra hopen
  have hopen' := UInt64.not_le.mp hopen
  have htrue := within_iff.mpr ⟨hopen', hstay⟩
  unfold passesWithin at htrue
  rw [hgo] at htrue
  cases htrue

/-- **A loop that ends for the other reason makes the same passes with more budget.** -/
theorem passesWithin_of_le {budget budget' : UInt64} {s : σ} (hle : budget ≤ budget')
    (hstay : stay (f^[passesWithin clock stay f budget s] s) = false) :
    passesWithin clock stay f budget' s = passesWithin clock stay f budget s := by
  refine passes_eq_of ?_ ?_ ?_
  · exact Nat.le_trans (passesWithin_le budget s) hle
  · intro j hj
    obtain ⟨hopen, hj'⟩ := before_pass hj
    exact within_iff.mpr ⟨UInt64.lt_of_lt_of_le hopen hle, hj'⟩
  · intro _
    simp [within, hstay]

/--
A loop that does not end for the other reason makes the same passes when it is asked for less.
-/
theorem passesWithin_weaken {stay' : σ → Bool} (himp : ∀ s, stay s = true → stay' s = true)
    {budget : UInt64} {s : σ}
    (hout : OpenAfter clock f budget s (passesWithin clock stay f budget s) →
      stay' (f^[passesWithin clock stay f budget s] s) = false) :
    passesWithin clock stay' f budget s = passesWithin clock stay f budget s := by
  refine passes_eq_of (passesWithin_le budget s) ?_ ?_
  · intro j hj
    obtain ⟨hopen, hstay⟩ := before_pass hj
    exact within_iff.mpr ⟨hopen, himp _ hstay⟩
  · intro hlt
    by_contra hgo
    obtain ⟨hopen, hstay⟩ := within_iff.mp (by simpa using hgo)
    rw [hout ⟨hlt, hopen⟩] at hstay
    cases hstay

/-! ## Counters that move -/

/-- Passes on which the counter moves spend one cycle each, at least. -/
theorem le_spentIn (hmoves : Moves clock stay f) {s : σ} {k : Nat}
    (hstay : ∀ j < k, stay (f^[j] s) = true) : k ≤ spentIn clock f s k := by
  refine le_consumed fun j hj => ?_
  rw [Function.iterate_succ_apply']
  exact hmoves _ (hstay j hj)

/-- So every pass but the last leaves the counter short of where the last one leaves it. -/
theorem spentIn_lt_of_lt (hmoves : Moves clock stay f) {s : σ} {i k : Nat} (hi : i < k)
    (hstay : ∀ j < k, stay (f^[j] s) = true) : spentIn clock f s i < spentIn clock f s k := by
  obtain ⟨d, rfl⟩ : ∃ d, k = i + d := ⟨k - i, by omega⟩
  have hrest : d ≤ spentIn clock f (f^[i] s) d := by
    refine le_spentIn hmoves fun j hj => ?_
    rw [← Function.iterate_add_apply, Nat.add_comm]
    exact hstay (i + j) (by omega)
  rw [spentIn_add]
  omega

/-- What was spent on some passes is a budget for just these passes. -/
theorem passesWithin_of_spent (hmoves : Moves clock stay f) {s : σ} {k : Nat}
    (hstay : ∀ j < k, stay (f^[j] s) = true) (hturn : spentIn clock f s k < 2 ^ 64) :
    passesWithin clock stay f (clock (f^[k] s) - clock s) s = k := by
  have hk : k ≤ spentIn clock f s k := le_spentIn hmoves hstay
  refine passes_eq_of ?_ ?_ ?_
  · rw [toNat_elapsed hturn]
    exact hk
  · intro j hj
    have hlt := spentIn_lt_of_lt hmoves hj hstay
    rw [within_iff, UInt64.lt_iff_toNat_lt, toNat_elapsed hturn, toNat_elapsed (by omega)]
    exact ⟨hlt, hstay j hj⟩
  · intro _
    simp [within]

/-! ## Two instalments -/

section Instalments

/-
The loop with the budget `a` makes `k` passes from `s` and moves the counter by `x`, and from there
the loop with the budget `b` makes `j` passes.
-/
variable {s : σ} {a b x : UInt64} {k j : Nat} (hmoves : Moves clock stay f)
  (hk : passesWithin clock stay f a s = k) (hj : passesWithin clock stay f b (f^[k] s) = j)
  (hx : x = clock (f^[k] s) - clock s) (hsum : x.toNat + b.toNat < 2 ^ 64)

include hmoves hj hx hsum

include hk in
/-- The loop with the whole budget gets at least as far as the two instalments. -/
theorem within_add_of_lt (ha : spentIn clock f s k < 2 ^ 64) {i : Nat} (hi : i < k + j) :
    within clock stay (x + b) (clock s) (f^[i] s) = true := by
  have hxk : x.toNat = spentIn clock f s k := hx ▸ toNat_elapsed ha
  rw [within_iff, UInt64.lt_iff_toNat_lt, UInt64.toNat_add, Nat.mod_eq_of_lt hsum]
  by_cases hik : i < k
  · have hlt := spentIn_lt_of_lt hmoves hik fun j hj => (before_pass (hk ▸ hj)).2
    rw [toNat_elapsed (by omega)]
    exact ⟨by omega, (before_pass (hk ▸ hik)).2⟩
  · obtain ⟨i', rfl⟩ : ∃ i', i = k + i' := ⟨i - k, by omega⟩
    have hi' : i' < passesWithin clock stay f b (f^[k] s) := by omega
    obtain ⟨hopen, hstay⟩ := before_pass hi'
    rw [UInt64.lt_iff_toNat_lt] at hopen
    rw [Nat.add_comm k i', Function.iterate_add_apply,
      toNat_sub_add (clock s) (clock (f^[k] s)), ← hx]
    exact ⟨by rw [Nat.mod_eq_of_lt (by omega)]; omega, hstay⟩

/-- And no further, unless it turns the counter all the way round. -/
theorem not_within_add (hturn : spentIn clock f s (k + j) < 2 ^ 64) :
    within clock stay (x + b) (clock s) (f^[k + j] s) = false := by
  have hsplit := spentIn_add clock f s k j
  have hxk : x.toNat = spentIn clock f s k := hx ▸ toNat_elapsed (by omega)
  by_contra hgo
  obtain ⟨hopen, hstay⟩ := within_iff.mp (by simpa using hgo)
  rw [UInt64.lt_iff_toNat_lt, toNat_elapsed hturn, UInt64.toNat_add, Nat.mod_eq_of_lt hsum,
    hsplit] at hopen
  have hjb : j ≤ b.toNat := hj ▸ passesWithin_le b (f^[k] s)
  rcases Nat.lt_or_eq_of_le hjb with hlt | heq
  · rw [Nat.add_comm k j, Function.iterate_add_apply] at hstay
    have hdone := after_passes (hj ▸ hlt) (hj ▸ hstay)
    rw [hj, UInt64.le_iff_toNat_le, toNat_elapsed (by omega)] at hdone
    omega
  · -- the second instalment has stopped at its bound on the passes
    have hone : j ≤ spentIn clock f (f^[k] s) j :=
      le_spentIn hmoves fun i hi => (before_pass (hj ▸ hi)).2
    omega

end Instalments

/--
**A budget may be spent in two instalments.** Let the loop with the budget `a` move the counter by
`x`. When no loop turns the counter all the way round, the loop with the budget `x + b` makes the
passes of that loop and then those of the loop with the budget `b`.
-/
theorem passesWithin_add (hmoves : Moves clock stay f) {s : σ} {a b x : UInt64} {k : Nat}
    (hk : passesWithin clock stay f a s = k) (hx : x = clock (f^[k] s) - clock s)
    (ha : spentIn clock f s k < 2 ^ 64) (hsum : x.toNat + b.toNat < 2 ^ 64)
    (hab : spentIn clock f s (passesWithin clock stay f (x + b) s) < 2 ^ 64) :
    passesWithin clock stay f (x + b) s = k + passesWithin clock stay f b (f^[k] s) := by
  obtain ⟨j, hj⟩ : ∃ j, passesWithin clock stay f b (f^[k] s) = j := ⟨_, rfl⟩
  rw [hj]
  have hgo : ∀ i < k + j, within clock stay (x + b) (clock s) (f^[i] s) = true := fun i hi =>
    within_add_of_lt hmoves hk hj hx hsum ha hi
  have hlen : k + j ≤ (x + b).toNat := by
    have hkx : k ≤ spentIn clock f s k := le_spentIn hmoves fun i hi => (before_pass (hk ▸ hi)).2
    have hxk : x.toNat = spentIn clock f s k := hx ▸ toNat_elapsed ha
    have hjb : j ≤ b.toNat := hj ▸ passesWithin_le b (f^[k] s)
    rw [UInt64.toNat_add, Nat.mod_eq_of_lt hsum]
    omega
  refine passes_eq_of hlen hgo fun _ => ?_
  -- the whole loop makes these passes too, so they have not turned the counter either
  have hfar : k + j ≤ passesWithin clock stay f (x + b) s := le_passes hlen hgo
  exact not_within_add hmoves hj hx hsum (Nat.lt_of_le_of_lt (consumed_mono _ hfar) hab)

/-- And it has something left over when the second instalment has. -/
theorem openAfter_add (hmoves : Moves clock stay f) {s : σ} {a b x : UInt64} {k j : Nat}
    (hk : passesWithin clock stay f a s = k) (hj : passesWithin clock stay f b (f^[k] s) = j)
    (hx : x = clock (f^[k] s) - clock s) (hsum : x.toNat + b.toNat < 2 ^ 64)
    (hturn : spentIn clock f s (k + j) < 2 ^ 64) :
    OpenAfter clock f (x + b) s (k + j) ↔ OpenAfter clock f b (f^[k] s) j := by
  have hsplit := spentIn_add clock f s k j
  have hxk : x.toNat = spentIn clock f s k := hx ▸ toNat_elapsed (by omega)
  have hkx : k ≤ spentIn clock f s k := le_spentIn hmoves fun i hi => (before_pass (hk ▸ hi)).2
  have hjx : j ≤ spentIn clock f (f^[k] s) j :=
    le_spentIn hmoves fun i hi => (before_pass (hj ▸ hi)).2
  simp only [OpenAfter, UInt64.lt_iff_toNat_lt, UInt64.toNat_add, Nat.mod_eq_of_lt hsum]
  rw [toNat_elapsed hturn, toNat_elapsed (by omega), hsplit, hxk]
  constructor
  · rintro ⟨-, hopen⟩
    constructor <;> omega
  · rintro ⟨hpasses, hopen⟩
    constructor <;> omega

end Infra.Budget
