import Mathlib.Data.List.Perm.Basic
import Mathlib.Logic.Relation

/-!
# Rearranged runs

A run is a list of actions on a state. Neighbours that are independent may change places, and what
is observed of the state at the end stays the same.

* `Rearranged` — runs that such exchanges lead from one to the other
* `rearranged_of_perm` — independent actions in a row may be done in any order
* `foldl_rearranged` — rearranged runs end in related states
-/

namespace Infra.Rearrange

variable {σ α : Type*}

/-- Runs that exchanges of independent neighbours lead from one to the other. -/
inductive Rearranged (indep : α → α → Prop) : List α → List α → Prop where
  | refl (as : List α) : Rearranged indep as as
  | swap (before after : List α) {a b : α} (h : indep a b) :
      Rearranged indep (before ++ a :: b :: after) (before ++ b :: a :: after)
  | trans {as bs cs : List α} (h : Rearranged indep as bs) (h' : Rearranged indep bs cs) :
      Rearranged indep as cs

namespace Rearranged

variable {indep : α → α → Prop} {as bs : List α}

/-- A rearrangement in the middle of a run. -/
theorem around (h : Rearranged indep as bs) (before after : List α) :
    Rearranged indep (before ++ as ++ after) (before ++ bs ++ after) := by
  induction h with
  | refl as => exact .refl _
  | swap before' after' h =>
    have hswap := Rearranged.swap (before ++ before') (after' ++ after) h
    simpa using hswap
  | trans _ _ ih ih' => exact ih.trans ih'

theorem cons (h : Rearranged indep as bs) (a : α) : Rearranged indep (a :: as) (a :: bs) := by
  simpa using h.around [a] []

/-- Actions in a row that are independent of one another may be done in any order. -/
theorem of_perm (h : as.Perm bs) (hindep : ∀ a ∈ as, ∀ b ∈ as, indep a b) :
    Rearranged indep as bs := by
  induction h with
  | nil => exact .refl []
  | cons a h ih =>
    refine (ih fun b hb c hc => ?_).cons a
    exact hindep b (List.mem_cons_of_mem a hb) c (List.mem_cons_of_mem a hc)
  | swap a b as =>
    exact .swap [] as (hindep b (by simp) a (by simp))
  | trans h _ ih ih' =>
    refine (ih hindep).trans (ih' fun b hb c hc => ?_)
    exact hindep b (h.symm.subset hb) c (h.symm.subset hc)

end Rearranged

/--
**Rearranged runs end in related states**, when every action keeps related states related and
independent actions lead to related states in either order.
-/
theorem foldl_rearranged {step : σ → α → σ} {R : σ → σ → Prop} (hR : Equivalence R)
    (hstep : ∀ {s s'}, R s s' → ∀ a, R (step s a) (step s' a)) {indep : α → α → Prop}
    (hindep : ∀ {a b}, indep a b → ∀ s, R (step (step s a) b) (step (step s b) a))
    {as bs : List α} (h : Rearranged indep as bs) (s : σ) :
    R (as.foldl step s) (bs.foldl step s) := by
  have hrun : ∀ (cs : List α) {s s' : σ}, R s s' → R (cs.foldl step s) (cs.foldl step s') := by
    intro cs
    induction cs with
    | nil => exact fun h => h
    | cons c cs ih => exact fun h => ih (hstep h c)
  induction h with
  | refl as => exact hR.refl _
  | swap before after h =>
    rw [List.foldl_append, List.foldl_append]
    exact hrun after (hindep h _)
  | trans _ _ ih ih' => exact hR.trans ih ih'

end Infra.Rearrange
