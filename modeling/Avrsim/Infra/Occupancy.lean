import Mathlib.Algebra.BigOperators.Group.Finset.Basic
import Mathlib.Algebra.Order.BigOperators.Group.Finset
import Mathlib.Algebra.Order.Ring.Nat
import Avrsim.Infra.Stretch

/-!
# Occupancy

How much of a sampled history a signal is high for, when each sample carries a reading `μ` of a
clock: the advance from one sample to the next counts when the first of them is high.

* `sum_cost_le_occupied` — the closed stretches of a signal cost no more than its occupancy
* `sum_occupied_le` — the occupancies of signals of which at most one is high at a time add up
  to no more than the clock advanced
-/

namespace Infra.Stretch

variable {α : Type*} (μ : α → Nat) (p : α → Bool)

/-- What the clock advances over a closed stretch; an open one costs nothing. -/
def cost (s : Stretch α) : Nat := (s.leave.map fun b => μ b - μ s.enter).getD 0

/-- The advance of the clock while the signal is high. -/
def occupied : List α → Nat
  | a :: b :: as => (if p a then μ b - μ a else 0) + occupied (b :: as)
  | _ => 0

/-- The advance of the clock over a history. -/
def elapsed : List α → Nat
  | a :: b :: as => (μ b - μ a) + elapsed (b :: as)
  | _ => 0

variable {p}

theorem occupied_le_cons (a : α) : ∀ as : List α, occupied μ p as ≤ occupied μ p (a :: as)
  | [] => Nat.le_refl 0
  | _ :: _ => Nat.le_add_left _ _

theorem occupied_append_le (as : List α) : ∀ before : List α,
    occupied μ p as ≤ occupied μ p (before ++ as)
  | [] => Nat.le_refl _
  | a :: before =>
    Nat.le_trans (occupied_append_le as before) (occupied_le_cons μ a (before ++ as))

mutual

/-- The closed stretches of a signal cost no more than its occupancy. -/
theorem sum_cost_le_occupied : ∀ as : List α,
    ((stretches p false as).map (cost μ)).sum ≤ occupied μ p as
  | [] => Nat.le_refl 0
  | a :: as => by
    cases ha : p a with
    | true =>
      simp only [stretches, ha, Bool.not_false, Bool.and_true, if_true, List.map_cons,
        List.sum_cons]
      exact cost_add_sum_cost_le_occupied as ha
    | false =>
      simp only [stretches, ha, Bool.false_and, Bool.false_eq_true, if_false]
      exact Nat.le_trans (sum_cost_le_occupied as) (occupied_le_cons μ a as)

/-- The same when a stretch has just been opened. -/
theorem cost_add_sum_cost_le_occupied : ∀ (as : List α) {a : α}, p a = true →
    cost μ ⟨a, firstLow p as⟩ + ((stretches p true as).map (cost μ)).sum
      ≤ occupied μ p (a :: as)
  | [], _, _ => Nat.le_refl 0
  | b :: as, a, ha => by
    rw [occupied, if_pos ha]
    cases hb : p b with
    | true =>
      -- the stretch goes on, and what it costs from `b` on is counted there
      have hlow : firstLow p (b :: as) = firstLow p as := by simp [firstLow, hb]
      have hrest := cost_add_sum_cost_le_occupied as hb
      have hcost : cost μ ⟨a, firstLow p as⟩ ≤ (μ b - μ a) + cost μ ⟨b, firstLow p as⟩ := by
        unfold cost
        cases firstLow p as with
        | none => exact Nat.zero_le _
        | some c => simp only [Option.map_some, Option.getD_some]; omega
      rw [hlow]
      simp only [stretches, hb, Bool.not_true, Bool.and_false, Bool.false_eq_true, if_false]
      omega
    | false =>
      have hlow : firstLow p (b :: as) = some b := by simp [firstLow, hb]
      have hrest := sum_cost_le_occupied as
      have hcons := occupied_le_cons μ b as (p := p)
      rw [hlow]
      simp only [stretches, hb, Bool.false_and, Bool.false_eq_true, if_false, cost,
        Option.map_some, Option.getD_some]
      omega

end

/-- Nor do those that open after the first sample of a history that starts high. -/
theorem sum_cost_le_occupied_of_level (was : Bool) (as : List α) :
    ((stretches p was as).map (cost μ)).sum ≤ occupied μ p as := by
  cases was with
  | false => exact sum_cost_le_occupied μ as
  | true =>
    cases as with
    | nil => exact Nat.le_refl 0
    | cons a as =>
      rw [stretches, Bool.not_true, Bool.and_false, if_neg Bool.false_ne_true]
      cases ha : p a with
      | true =>
        exact Nat.le_trans (Nat.le_add_left _ _) (cost_add_sum_cost_le_occupied μ as ha)
      | false => exact Nat.le_trans (sum_cost_le_occupied μ as) (occupied_le_cons μ a as)

/-- Stretches opened from some position on. -/
theorem sum_cost_openedFrom_le (was : Bool) {k : Nat} {as : List α} (h : k ≤ as.length) :
    ((openedFrom p was k as).map (cost μ)).sum ≤ occupied μ p as := by
  rw [openedFrom_eq_stretches was as h]
  have hdrop := occupied_append_le μ (p := p) (as.drop k) (as.take k)
  rw [List.take_append_drop] at hdrop
  exact Nat.le_trans (sum_cost_le_occupied_of_level μ _ _) hdrop

/-! ## Several signals -/

/-- At most one of the signals is high at a sample. -/
theorem sum_ite_le {ι : Type*} (signals : Finset ι) {high : ι → Bool}
    (h : ∀ i ∈ signals, ∀ j ∈ signals, high i = true → high j = true → i = j) (d : Nat) :
    ∑ i ∈ signals, (if high i then d else 0) ≤ d := by
  by_cases hex : ∃ i ∈ signals, high i = true
  · obtain ⟨i, hi, hhigh⟩ := hex
    rw [Finset.sum_eq_single_of_mem i hi fun j hj hne => ?_]
    · rw [if_pos hhigh]
    · exact if_neg fun hj' => hne (h j hj i hi hj' hhigh)
  · rw [Finset.sum_eq_zero fun i hi => if_neg fun hhigh => hex ⟨i, hi, hhigh⟩]
    exact Nat.zero_le d

/-- Signals of which at most one is high at a time share the advance of the clock. -/
theorem sum_occupied_le_elapsed {ι : Type*} (signals : Finset ι) {q : ι → α → Bool} :
    ∀ as : List α, (∀ a ∈ as, ∀ i ∈ signals, ∀ j ∈ signals, q i a = true → q j a = true → i = j) →
      ∑ i ∈ signals, occupied μ (q i) as ≤ elapsed μ as
  | [], _ => by simp [occupied]
  | [_], _ => by simp [occupied]
  | a :: b :: as, h => by
    have hhere : ∑ i ∈ signals, (if q i a then μ b - μ a else 0) ≤ μ b - μ a :=
      sum_ite_le signals (h a List.mem_cons_self) _
    have hrest := sum_occupied_le_elapsed signals (b :: as) fun c hc =>
      h c (List.mem_cons_of_mem _ hc)
    simp only [occupied, elapsed, Finset.sum_add_distrib]
    exact Nat.add_le_add hhere hrest

/-- A clock that does not go back advances by no more than the difference of two bounds. -/
theorem elapsed_le {hi : Nat} : ∀ {lo : Nat} {as : List α}, as.Pairwise (fun a b => μ a ≤ μ b) →
    (∀ a ∈ as, lo ≤ μ a ∧ μ a ≤ hi) → elapsed μ as ≤ hi - lo
  | _, [], _, _ => Nat.zero_le _
  | _, [_], _, _ => Nat.zero_le _
  | lo, a :: b :: as, hsorted, hbounds => by
    obtain ⟨hhead, htail⟩ := List.pairwise_cons.mp hsorted
    have hrest : elapsed μ (b :: as) ≤ hi - μ b := by
      refine elapsed_le htail fun c hc => ⟨?_, (hbounds c (List.mem_cons_of_mem _ hc)).2⟩
      rcases List.mem_cons.mp hc with rfl | hc
      · exact Nat.le_refl _
      · exact (List.pairwise_cons.mp htail).1 c hc
    have ha := hbounds a List.mem_cons_self
    have hb := hbounds b (List.mem_cons_of_mem _ List.mem_cons_self)
    have hab := hhead b List.mem_cons_self
    rw [elapsed]
    omega

end Infra.Stretch
