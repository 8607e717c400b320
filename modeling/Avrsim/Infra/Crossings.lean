import Mathlib.Algebra.BigOperators.Group.Finset.Piecewise
import Avrsim.Infra.Occupancy

/-!
# Crossings

Every sample of a history belongs to one owner, and each owner is a signal: high where the sample is
its own. The time that passes between the first change of owner and the last is then the closed
stretches of all owners, and nothing else.

* `crossings` — the samples at which the owner changes
* `sum_cost_eq_elapsed` — the closed stretches of all owners
* `elapsed_eq_span` — a clock that does not go back advances from the first reading to the last
-/

namespace Infra.Stretch

variable {α κ : Type*} [DecidableEq κ] (μ : α → Nat) (owner : α → κ)

/-- The samples at which the owner changes, when it was `k` before the first of them. -/
def crossings : κ → List α → List α
  | _, [] => []
  | k, a :: as => if owner a = k then crossings k as else a :: crossings (owner a) as

/-- The signal of one owner. -/
def owned (k : κ) (a : α) : Bool := decide (owner a = k)

variable {owner}

theorem crossings_sublist : ∀ (k : κ) (as : List α), (crossings owner k as).Sublist as
  | _, [] => List.Sublist.refl []
  | k, a :: as => by
    rw [crossings]
    split
    · exact (crossings_sublist k as).cons a
    · exact (crossings_sublist (owner a) as).cons_cons a

/-- What an owner has held it gives up at the next crossing. -/
theorem firstLow_owned : ∀ (k : κ) (as : List α),
    firstLow (owned owner k) as = (crossings owner k as).head?
  | _, [] => rfl
  | k, a :: as => by
    rw [crossings]
    split
    · next h =>
      rw [← firstLow_owned k as]
      simp [firstLow, owned, h]
    · next h => simp [firstLow, owned, h]

/-- A sample of the owner there was opens nothing. -/
theorem stretches_owned_of_eq {a : α} {k : κ} (h : owner a = k) (i : κ) (as : List α) :
    stretches (owned owner i) (decide (k = i)) (a :: as)
      = stretches (owned owner i) (decide (k = i)) as := by
  rw [stretches]
  simp [owned, h]

/-- A crossing opens a stretch of the new owner, and of no other. -/
theorem stretches_owned_of_ne {a : α} {k : κ} (h : owner a ≠ k) (i : κ) (as : List α) :
    ((stretches (owned owner i) (decide (k = i)) (a :: as)).map (cost μ)).sum
      = (if owner a = i then cost μ ⟨a, firstLow (owned owner (owner a)) as⟩ else 0)
        + ((stretches (owned owner i) (decide (owner a = i)) as).map (cost μ)).sum := by
  rw [stretches]
  by_cases hi : owner a = i
  · subst hi
    simp [owned, Ne.symm h]
  · simp [owned, hi]

/-- **The closed stretches of all owners are the time between the first crossing and the last.** -/
theorem sum_cost_eq_elapsed (owners : Finset κ) : ∀ (k : κ) (as : List α),
    (∀ a ∈ as, owner a ∈ owners) →
      ∑ i ∈ owners, ((stretches (owned owner i) (decide (k = i)) as).map (cost μ)).sum
        = elapsed μ (crossings owner k as)
  | _, [], _ => by simp [stretches, crossings, elapsed]
  | k, a :: as, h => by
    have hrest := sum_cost_eq_elapsed owners (owner a) as
      fun b hb => h b (List.mem_cons_of_mem _ hb)
    rw [crossings]
    by_cases ha : owner a = k
    · rw [if_pos ha]
      simp only [stretches_owned_of_eq ha]
      rw [← ha]
      exact hrest
    · rw [if_neg ha]
      simp only [stretches_owned_of_ne μ ha, Finset.sum_add_distrib, hrest, firstLow_owned]
      rw [Finset.sum_ite_eq, if_pos (h a List.mem_cons_self)]
      -- the stretch the crossing opens is closed by the next crossing
      cases crossings owner (owner a) as with
      | nil => rfl
      | cons b bs => rfl

/-! ## From the first to the last -/

/-- What the clock advances from the first sample to the last. -/
def span (as : List α) : Nat := (as.getLast?.map μ).getD 0 - (as.head?.map μ).getD 0

theorem elapsed_eq_span : ∀ {as : List α}, as.Pairwise (fun a b => μ a ≤ μ b) →
    elapsed μ as = span μ as
  | [], _ => rfl
  | [a], _ => (Nat.sub_self (μ a)).symm
  | a :: b :: as, h => by
    obtain ⟨ha, hrest⟩ := List.pairwise_cons.mp h
    have hlast := List.getLast_mem (List.cons_ne_nil b as)
    have hbl : μ b ≤ μ ((b :: as).getLast (List.cons_ne_nil b as)) := by
      rcases List.mem_cons.mp hlast with heq | hmem
      · exact Nat.le_of_eq (congrArg μ heq.symm)
      · exact (List.pairwise_cons.mp hrest).1 _ hmem
    have hab := ha b List.mem_cons_self
    rw [elapsed, elapsed_eq_span hrest]
    unfold span
    rw [List.getLast?_cons_cons, List.getLast?_eq_some_getLast (List.cons_ne_nil b as)]
    simp only [Option.map_some, Option.getD_some, List.head?_cons]
    omega

end Infra.Stretch
