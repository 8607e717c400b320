import Mathlib.Logic.Function.Iterate

/-!
# Bounded while loops

`while (go s) { s = f s; }` with a cap on the number of passes, over any state type.

* `stepWhile` is the state the loop leaves, `passes` how often the body ran and
  `visited` the state after each pass
* `passes_eq_of` pins the number of passes down; every other fact about where a loop
  stops is read off `stepWhile_eq_iterate`
* `stepWhile_induction` is the invariant rule, `map_stepWhile` the simulation rule for a
  function and `rel_stepWhile` the one for a relation
* `stepWhile_foldl` reads what a loop accumulates off the states it visits
-/

namespace Infra.Loop

variable {σ τ β : Type*} (go : σ → Bool) (f : σ → σ)

/-- Run `f` while `go` holds, at most `n` times. -/
def stepWhile : Nat → σ → σ
  | 0, s => s
  | n + 1, s => if go s then stepWhile n (f s) else s

/-- How many times the body runs. -/
def passes : Nat → σ → Nat
  | 0, _ => 0
  | n + 1, s => if go s then passes n (f s) + 1 else 0

/-- The state after each pass, oldest first. -/
def visited : Nat → σ → List σ
  | 0, _ => []
  | n + 1, s => if go s then f s :: visited n (f s) else []

/-! ## Where the loop stops -/

theorem passes_le : ∀ (n : Nat) (s : σ), passes go f n s ≤ n
  | 0, _ => Nat.le_refl 0
  | n + 1, s => by
    rw [passes]
    split
    · exact Nat.succ_le_succ (passes_le n (f s))
    · exact Nat.zero_le _

theorem stepWhile_eq_iterate : ∀ (n : Nat) (s : σ),
    stepWhile go f n s = f^[passes go f n s] s
  | 0, _ => rfl
  | n + 1, s => by
    rw [stepWhile, passes]
    split
    · rw [stepWhile_eq_iterate n (f s), Function.iterate_succ_apply]
    · rfl

/-- The guard held before every pass that was made. -/
theorem go_of_lt_passes : ∀ (n : Nat) (s : σ) {j : Nat}, j < passes go f n s →
    go (f^[j] s) = true
  | 0, _, _, h => absurd h (Nat.not_lt_zero _)
  | n + 1, s, j, h => by
    rw [passes] at h
    split at h
    · next hgo =>
      cases j with
      | zero => exact hgo
      | succ j =>
        rw [Function.iterate_succ_apply]
        exact go_of_lt_passes n (f s) (Nat.lt_of_succ_lt_succ h)
    · exact absurd h (Nat.not_lt_zero _)

/-- A loop that stops short of its cap stops because the guard fails. -/
theorem not_go_of_passes_lt : ∀ (n : Nat) (s : σ), passes go f n s < n →
    go (f^[passes go f n s] s) = false
  | 0, _, h => absurd h (Nat.not_lt_zero _)
  | n + 1, s, h => by
    rw [passes] at h ⊢
    split at h
    · next hgo =>
      rw [if_pos hgo, Function.iterate_succ_apply]
      exact not_go_of_passes_lt n (f s) (Nat.lt_of_succ_lt_succ h)
    · next hgo => rw [if_neg hgo]; simpa using hgo

variable {go f}

/-- The loop gets as far as its guard holds. -/
theorem le_passes {n k : Nat} {s : σ} (hk : k ≤ n) (hgo : ∀ j < k, go (f^[j] s) = true) :
    k ≤ passes go f n s := by
  by_contra hlt
  have hfalse := not_go_of_passes_lt go f n s (by omega)
  rw [hgo _ (by omega)] at hfalse
  exact absurd hfalse (by simp)

/-- The number of passes is the first at which the guard fails, or the cap. -/
theorem passes_eq_of {n k : Nat} {s : σ} (hk : k ≤ n) (hgo : ∀ j < k, go (f^[j] s) = true)
    (hstop : k < n → go (f^[k] s) = false) : passes go f n s = k := by
  refine Nat.le_antisymm ?_ (le_passes hk hgo)
  by_contra hlt
  have htrue := go_of_lt_passes go f n s (j := k) (by omega)
  have hle := passes_le go f n s
  rw [hstop (by omega)] at htrue
  exact absurd htrue (by simp)

/-! ## Invariants and simulations -/

/-- What every pass preserves holds where the loop stops. -/
theorem stepWhile_induction {P : σ → Prop} (hf : ∀ s, P s → P (f s)) :
    ∀ (n : Nat) (s : σ), P s → P (stepWhile go f n s)
  | 0, _, h => h
  | n + 1, s, h => by
    rw [stepWhile]
    split
    · exact stepWhile_induction hf n (f s) (hf s h)
    · exact h

/-- A component that each pass updates from the new state is the fold over `visited`. -/
theorem stepWhile_foldl {π : σ → β} {obs : β → σ → β} (hf : ∀ s, π (f s) = obs (π s) (f s)) :
    ∀ (n : Nat) (s : σ), π (stepWhile go f n s) = (visited go f n s).foldl obs (π s)
  | 0, _ => rfl
  | n + 1, s => by
    rw [stepWhile, visited]
    split
    · rw [stepWhile_foldl hf n (f s), hf, List.foldl_cons]
    · rfl

section Simulation

variable {go' : τ → Bool} {g : τ → τ} {π : σ → τ}
  (hf : ∀ s, π (f s) = g (π s)) (hgo : ∀ s, go s = go' (π s))

include hf in
theorem map_iterate (k : Nat) (s : σ) : π (f^[k] s) = g^[k] (π s) :=
  (Function.Semiconj.iterate_right (f := π) hf k).eq s

include hf hgo

theorem passes_map : ∀ (n : Nat) (s : σ), passes go f n s = passes go' g n (π s)
  | 0, _ => rfl
  | n + 1, s => by
    simp only [passes, hgo s]
    split
    · rw [passes_map n (f s), hf]
    · rfl

theorem visited_map : ∀ (n : Nat) (s : σ),
    (visited go f n s).map π = visited go' g n (π s)
  | 0, _ => rfl
  | n + 1, s => by
    simp only [visited, hgo s]
    split
    · rw [List.map_cons, visited_map n (f s), hf]
    · rfl

theorem map_stepWhile (n : Nat) (s : σ) : π (stepWhile go f n s) = stepWhile go' g n (π s) := by
  rw [stepWhile_eq_iterate, stepWhile_eq_iterate, map_iterate hf, passes_map hf hgo]

end Simulation

section Relation

variable {R : σ → τ → Prop} {go' : τ → Bool} {g : τ → τ}

/-- Two loops in step: related states agree on the guard, and a pass keeps them related. -/
theorem rel_stepWhile (hgo : ∀ s t, R s t → go s = go' t)
    (hf : ∀ s t, R s t → go s = true → R (f s) (g t)) : ∀ (n : Nat) {s : σ} {t : τ}, R s t →
      passes go f n s = passes go' g n t ∧ R (stepWhile go f n s) (stepWhile go' g n t)
  | 0, _, _, h => ⟨rfl, h⟩
  | n + 1, s, t, h => by
    simp only [passes, stepWhile, ← hgo s t h]
    cases hs : go s with
    | false => exact ⟨rfl, h⟩
    | true =>
      obtain ⟨hpasses, hrel⟩ := rel_stepWhile hgo hf n (hf s t h hs)
      exact ⟨congrArg (· + 1) hpasses, hrel⟩

end Relation

/-! ## The visited states -/

/-- The loop leaves the last state it visits, or the first when it visits none. -/
theorem stepWhile_eq_getLast : ∀ (n : Nat) (s : σ),
    stepWhile go f n s = (visited go f n s).getLast?.getD s
  | 0, _ => rfl
  | n + 1, s => by
    rw [stepWhile, visited]
    split
    · rw [stepWhile_eq_getLast n (f s), List.getLast?_cons, Option.getD_some]
    · rfl

/-- What no pass decreases goes up along the visited states. -/
theorem visited_sorted {μ : σ → Nat} (hf : ∀ s, μ s ≤ μ (f s)) : ∀ (n : Nat) (s : σ),
    (visited go f n s).Pairwise (fun x y => μ x ≤ μ y)
      ∧ ∀ x ∈ visited go f n s, μ s ≤ μ x ∧ μ x ≤ μ (stepWhile go f n s)
  | 0, _ => ⟨List.Pairwise.nil, fun _ hx => by cases hx⟩
  | n + 1, s => by
    rw [visited, stepWhile]
    split
    · obtain ⟨hsorted, hbounds⟩ := visited_sorted hf n (f s)
      refine ⟨List.Pairwise.cons (fun x hx => (hbounds x hx).1) hsorted, fun x hx => ?_⟩
      rcases List.mem_cons.mp hx with rfl | hx
      · refine ⟨hf s, ?_⟩
        exact stepWhile_induction (P := fun t => μ (f s) ≤ μ t)
          (fun t ht => Nat.le_trans ht (hf t)) n (f s) (Nat.le_refl _)
      · exact ⟨Nat.le_trans (hf s) (hbounds x hx).1, (hbounds x hx).2⟩
    · exact ⟨List.Pairwise.nil, fun _ hx => by cases hx⟩

end Infra.Loop
