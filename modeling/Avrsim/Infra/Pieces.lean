import Avrsim.Infra.Occupancy

/-!
# Pieces of a signal

A signal that is cut into pieces is high exactly where one of them is. Their closed stretches cost
less than its own, since a stretch of a piece may still be open, and they cost more, since a visit
to one piece may be over while the signal is still high. Counted up to a reading `now` of the clock,
open stretches included, the two are the same.

* `costBy` — what a stretch has cost by now
* `sum_costBy` — all stretches of a signal, as an advance of the clock
* `sum_sum_costBy` — the stretches of the pieces
-/

namespace Infra.Stretch

variable {α κ : Type*} (μ : α → Nat) (now : Nat)

/-- What the clock advances over a stretch by now, if it is still open. -/
def costBy (s : Stretch α) : Nat := (s.leave.map μ).getD now - μ s.enter

/-- The advance of the clock while the signal is high, until now. -/
def occupiedBy (p : α → Bool) : List α → Nat
  | [] => 0
  | a :: as => (if p a then (as.head?.map μ).getD now - μ a else 0) + occupiedBy p as

/-- A clock that does not go back, and has not got past now. -/
structure RunsTo (as : List α) : Prop where
  sorted : as.Pairwise fun a b => μ a ≤ μ b
  le : ∀ a ∈ as, μ a ≤ now

variable {μ now} {p : α → Bool}

theorem RunsTo.tail {a : α} {as : List α} (h : RunsTo μ now (a :: as)) : RunsTo μ now as :=
  ⟨h.sorted.of_cons, fun b hb => h.le b (List.mem_cons_of_mem a hb)⟩

/-- The reading after the first one, or now, is not before it. -/
theorem RunsTo.le_firstLow {a : α} {as : List α} (h : RunsTo μ now (a :: as)) :
    μ a ≤ ((firstLow p as).map μ).getD now := by
  cases hlow : firstLow p as with
  | none => exact h.le a List.mem_cons_self
  | some b => exact (List.pairwise_cons.mp h.sorted).1 b (List.mem_of_find?_eq_some hlow)

/-- A stretch that goes on at the next sample. -/
theorem costBy_of_high {a b : α} {as : List α} (h : RunsTo μ now (a :: b :: as))
    (hb : p b = true) :
    costBy μ now ⟨a, firstLow p (b :: as)⟩ = (μ b - μ a) + costBy μ now ⟨b, firstLow p as⟩ := by
  have hlow : firstLow p (b :: as) = firstLow p as := by simp [firstLow, hb]
  have hab : μ a ≤ μ b := (List.pairwise_cons.mp h.sorted).1 b List.mem_cons_self
  have hbc := h.tail.le_firstLow (p := p)
  unfold costBy
  rw [hlow]
  simp only
  omega

mutual

/-- **What the stretches of a signal have cost by now is the time it has been high.** -/
theorem sum_costBy : ∀ {as : List α}, RunsTo μ now as →
    ((stretches p false as).map (costBy μ now)).sum = occupiedBy μ now p as
  | [], _ => rfl
  | a :: as, h => by
    cases ha : p a with
    | true =>
      simp only [stretches, ha, Bool.not_false, Bool.and_true, if_true, List.map_cons,
        List.sum_cons]
      exact costBy_add_sum_costBy h ha
    | false =>
      have hrest := sum_costBy h.tail
      simp only [stretches, occupiedBy, ha, Bool.false_and, Bool.false_eq_true, if_false, hrest,
        Nat.zero_add]

/-- The same when a stretch has just been opened. -/
theorem costBy_add_sum_costBy : ∀ {as : List α} {a : α}, RunsTo μ now (a :: as) → p a = true →
    costBy μ now ⟨a, firstLow p as⟩ + ((stretches p true as).map (costBy μ now)).sum
      = occupiedBy μ now p (a :: as)
  | [], a, _, ha => by simp [costBy, stretches, firstLow, occupiedBy, ha]
  | b :: as, a, h, ha => by
    rw [occupiedBy, if_pos ha, List.head?_cons, Option.map_some, Option.getD_some]
    cases hb : p b with
    | true =>
      have hrest := costBy_add_sum_costBy h.tail hb
      rw [costBy_of_high h hb, stretches, hb, Bool.not_true, Bool.and_false,
        if_neg Bool.false_ne_true, Nat.add_assoc, hrest]
    | false =>
      have hlow : firstLow p (b :: as) = some b := by simp [firstLow, hb]
      have hrest := sum_costBy h.tail.tail
      rw [hlow, stretches, hb, Bool.false_and, if_neg Bool.false_ne_true, hrest, occupiedBy, hb,
        if_neg Bool.false_ne_true, Nat.zero_add]
      rfl

end

/-! ## Cutting a signal -/

/-- The signal `p` is high where exactly one of the pieces is, and low where none is. -/
structure CutInto (p : α → Bool) (pieces : Finset κ) (q : κ → α → Bool) (a : α) : Prop where
  exists_piece : p a = true → ∃ i ∈ pieces, q i a = true
  unique : ∀ i ∈ pieces, ∀ j ∈ pieces, q i a = true → q j a = true → i = j
  high : ∀ i ∈ pieces, q i a = true → p a = true

theorem CutInto.sum_ite {pieces : Finset κ} {q : κ → α → Bool} {a : α} (h : CutInto p pieces q a)
    (d : Nat) : ∑ i ∈ pieces, (if q i a then d else 0) = if p a then d else 0 := by
  by_cases ha : p a = true
  · obtain ⟨i, hi, hq⟩ := h.exists_piece ha
    rw [Finset.sum_eq_single_of_mem i hi fun j hj hne => ?_, if_pos hq, if_pos ha]
    exact if_neg fun hj' => hne (h.unique j hj i hi hj' hq)
  · rw [if_neg ha]
    exact Finset.sum_eq_zero fun i hi => if_neg fun hq => ha (h.high i hi hq)

/-- The pieces are high for as long as the signal is. -/
theorem sum_occupiedBy {pieces : Finset κ} {q : κ → α → Bool} : ∀ {as : List α},
    (∀ a ∈ as, CutInto p pieces q a) →
      ∑ i ∈ pieces, occupiedBy μ now (q i) as = occupiedBy μ now p as
  | [], _ => Finset.sum_const_zero
  | a :: as, h => by
    have hrest := sum_occupiedBy fun b hb => h b (List.mem_cons_of_mem a hb)
    simp only [occupiedBy, Finset.sum_add_distrib, (h a List.mem_cons_self).sum_ite, hrest]

/-- **What the stretches of the pieces have cost by now is what those of the signal have.** -/
theorem sum_sum_costBy {pieces : Finset κ} {q : κ → α → Bool} {as : List α} (h : RunsTo μ now as)
    (hcut : ∀ a ∈ as, CutInto p pieces q a) :
    ∑ i ∈ pieces, ((stretches (q i) false as).map (costBy μ now)).sum
      = ((stretches p false as).map (costBy μ now)).sum := by
  rw [sum_costBy h, ← sum_occupiedBy hcut]
  exact Finset.sum_congr rfl fun i _ => sum_costBy h

/-! ## Bounds -/

theorem occupiedBy_add_le : ∀ {as : List α} {a : α}, RunsTo μ now (a :: as) →
    occupiedBy μ now p (a :: as) + μ a ≤ now
  | [], a, h => by
    have ha := h.le a List.mem_cons_self
    simp only [occupiedBy, List.head?_nil, Option.map_none, Option.getD_none]
    split <;> omega
  | b :: as, a, h => by
    have hrest : occupiedBy μ now p (b :: as) + μ b ≤ now := occupiedBy_add_le h.tail
    have hab : μ a ≤ μ b := (List.pairwise_cons.mp h.sorted).1 b List.mem_cons_self
    rw [occupiedBy, List.head?_cons, Option.map_some, Option.getD_some]
    split <;> omega

/-- A signal has not been high for longer than until now. -/
theorem occupiedBy_le {as : List α} (h : RunsTo μ now as) : occupiedBy μ now p as ≤ now := by
  cases as with
  | nil => exact Nat.zero_le _
  | cons a as => exact Nat.le_trans (Nat.le_add_right _ _) (occupiedBy_add_le h)

end Infra.Stretch
