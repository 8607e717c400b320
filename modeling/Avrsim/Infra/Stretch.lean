import Mathlib.Data.List.Basic
import Mathlib.Data.List.Induction

/-!
# Stretches of a sampled signal

A signal is sampled at discrete instants and `p` says at which samples it is high. A *stretch*
is a maximal run of high samples that begins at a rising edge: it carries the sample at the
edge and, once the signal has fallen, the first low sample after it.

* `stretches` reads the stretches off a whole history
* `observe` is the same log kept one sample at a time: append on a rising edge, fill in the
  last entry on a falling one
* `stretches_concat` says that the two agree, one sample at a time
* `stretches_eq_filterMap` gives the stretches by position in the history, and `openedFrom`
  those opened from some position on
* `pairwise_closed` says that only the last stretch can be open
-/

namespace Infra

/-- A stretch: the sample that opened it and the one that closed it, if it is closed. -/
structure Stretch (α : Type*) where
  enter : α
  leave : Option α
deriving DecidableEq, Repr

namespace Stretch

variable {α : Type*} (p : α → Bool)

/-- The first low sample. -/
def firstLow (as : List α) : Option α := as.find? fun a => !p a

/-- The stretches of a history, when the signal was at level `was` before it. -/
def stretches : Bool → List α → List (Stretch α)
  | _, [] => []
  | was, a :: as =>
    if p a && !was then ⟨a, firstLow p as⟩ :: stretches (p a) as else stretches (p a) as

/-- The level after a history. -/
def level : Bool → List α → Bool
  | was, [] => was
  | _, a :: as => level (p a) as

/-- Fill in the end of the last stretch, if it has none yet. -/
def closeLast (b : α) (log : List (Stretch α)) : List (Stretch α) :=
  match log.getLast? with
  | some ⟨a, none⟩ => log.dropLast ++ [⟨a, some b⟩]
  | _ => log

/-- One sample: an edge appends to the log or closes its last entry. -/
def observe (st : Bool × List (Stretch α)) (a : α) : Bool × List (Stretch α) :=
  (p a,
    if p a && !st.1 then st.2 ++ [⟨a, none⟩]
    else if !p a && st.1 then closeLast a st.2
    else st.2)

variable {p}

/-! ## Closing the last stretch -/

@[simp] theorem closeLast_nil (b : α) : closeLast b [] = [] := rfl

@[simp] theorem closeLast_concat_open (b a : α) (log : List (Stretch α)) :
    closeLast b (log ++ [⟨a, none⟩]) = log ++ [⟨a, some b⟩] := by
  simp [closeLast]

@[simp] theorem closeLast_concat_closed (b a c : α) (log : List (Stretch α)) :
    closeLast b (log ++ [⟨a, some c⟩]) = log ++ [⟨a, some c⟩] := by
  simp [closeLast]

theorem closeLast_cons (b : α) (s : Stretch α) {log : List (Stretch α)} (h : log ≠ []) :
    closeLast b (s :: log) = s :: closeLast b log := by
  obtain ⟨init, ⟨a, c⟩, rfl⟩ : ∃ init last, log = init ++ [last] :=
    ⟨log.dropLast, log.getLast h, (List.dropLast_concat_getLast h).symm⟩
  cases c with
  | none =>
    rw [closeLast_concat_open, ← List.cons_append, closeLast_concat_open, List.cons_append]
  | some c =>
    rw [closeLast_concat_closed, ← List.cons_append, closeLast_concat_closed, List.cons_append]

/-! ## Levels and first low samples -/

theorem firstLow_append (as bs : List α) :
    firstLow p (as ++ bs) = (firstLow p as).or (firstLow p bs) :=
  List.find?_append

theorem firstLow_eq_none {as : List α} : firstLow p as = none ↔ ∀ a ∈ as, p a = true := by
  simp [firstLow]

theorem level_append : ∀ (was : Bool) (as bs : List α),
    level p was (as ++ bs) = level p (level p was as) bs
  | _, [], _ => rfl
  | _, a :: as, bs => level_append (p a) as bs

theorem level_eq_getLast? : ∀ (was : Bool) (as : List α),
    level p was as = (as.getLast?.map p).getD was
  | _, [] => rfl
  | was, [a] => rfl
  | was, a :: b :: as => by
    rw [level, level_eq_getLast? (p a) (b :: as), List.getLast?_cons_cons]
    cases h : (b :: as).getLast? with
    | none => simp at h
    | some c => rfl

/-- A signal that starts high and ends low has a low sample. -/
theorem firstLow_isSome_of_level {as : List α} (h : level p true as = false) :
    (firstLow p as).isSome = true := by
  rw [Option.isSome_iff_ne_none]
  intro hnone
  rw [firstLow_eq_none] at hnone
  rw [level_eq_getLast?] at h
  cases hl : as.getLast? with
  | none => simp [hl] at h
  | some c => simp [hl, hnone c (List.mem_of_getLast? hl)] at h

/-- While the signal stays high nothing new opens. -/
theorem stretches_true_eq_nil : ∀ {as : List α}, (∀ a ∈ as, p a = true) →
    stretches p true as = []
  | [], _ => rfl
  | a :: as, h => by
    have ha : p a = true := h a List.mem_cons_self
    rw [stretches, ha]
    exact stretches_true_eq_nil fun x hx => h x (List.mem_cons_of_mem _ hx)

/-- Nor does anything while it stays low. -/
theorem stretches_eq_nil_of_low : ∀ {was : Bool} {as : List α}, (∀ a ∈ as, p a = false) →
    stretches p was as = []
  | _, [], _ => rfl
  | _, a :: as, h => by
    have ha : p a = false := h a List.mem_cons_self
    rw [stretches, ha]
    exact stretches_eq_nil_of_low fun x hx => h x (List.mem_cons_of_mem _ hx)

/-! ## The log kept sample by sample -/

/-- What one more sample does to the stretches of a history. -/
theorem stretches_concat : ∀ (was : Bool) (as : List α) (b : α),
    stretches p was (as ++ [b]) = (observe p (level p was as, stretches p was as) b).2
  | was, [], b => by
    cases hp : p b <;> cases was <;> simp [stretches, observe, level, hp, firstLow]
  | was, a :: as, b => by
    rw [List.cons_append, stretches, level, stretches_concat (p a) as b, stretches]
    split
    · next hrise =>
      -- `a` opens a stretch; `b` may be the sample that closes it
      have ha : p a = true := by simp only [Bool.and_eq_true] at hrise; exact hrise.1
      rw [ha, firstLow_append]
      cases hb : p b with
      | true =>
        have hlow : firstLow p [b] = none := by simp [firstLow, hb]
        rw [hlow, Option.or_none]
        cases hl : level p true as <;> simp [observe, hb]
      | false =>
        have hlow : firstLow p [b] = some b := by simp [firstLow, hb]
        rw [hlow]
        cases hl : level p true as with
        | false =>
          obtain ⟨c, hc⟩ := Option.isSome_iff_exists.mp (firstLow_isSome_of_level hl)
          simp [observe, hb, hc]
        | true =>
          cases hs : stretches p true as with
          | nil =>
            cases hf : firstLow p as with
            | none => simpa [observe, hb] using (closeLast_concat_open b a []).symm
            | some c => simpa [observe, hb] using (closeLast_concat_closed b a c []).symm
          | cons s log =>
            have hsome : (firstLow p as).isSome = true := by
              rw [Option.isSome_iff_ne_none]
              intro hnone
              rw [stretches_true_eq_nil (firstLow_eq_none.mp hnone)] at hs
              simp at hs
            obtain ⟨c, hc⟩ := Option.isSome_iff_exists.mp hsome
            simp [observe, hb, hc, closeLast_cons]
    · rfl

/-! ## Stretches by position -/

/-- The level before sample `i`. -/
def before (p : α → Bool) (was : Bool) (as : List α) : Nat → Bool
  | 0 => was
  | i + 1 => (as[i]?.map p).getD was

/-- The stretch that opens at sample `i`, if one does. -/
def openedAt (p : α → Bool) (was : Bool) (as : List α) (i : Nat) : Option (Stretch α) :=
  as[i]?.bind fun a =>
    if p a && !before p was as i then some ⟨a, firstLow p (as.drop (i + 1))⟩ else none

theorem openedAt_succ (was : Bool) (a : α) (as : List α) (i : Nat) :
    openedAt p was (a :: as) (i + 1) = openedAt p (p a) as i := by
  unfold openedAt
  rw [List.getElem?_cons_succ, List.drop_succ_cons]
  cases has : as[i]? with
  | none => rfl
  | some b =>
    have hbefore : before p was (a :: as) (i + 1) = before p (p a) as i := by
      cases i with
      | zero => rfl
      | succ i =>
        obtain ⟨hlt, -⟩ := List.getElem?_eq_some_iff.mp has
        simp [before, List.getElem?_eq_getElem (show i < as.length by omega)]
    rw [hbefore]

/-- **The stretches are those opened at each position, in order.** -/
theorem stretches_eq_filterMap : ∀ (was : Bool) (as : List α),
    stretches p was as = (List.range as.length).filterMap (openedAt p was as)
  | _, [] => rfl
  | was, a :: as => by
    have htail : (List.range as.length).filterMap (openedAt p was (a :: as) ∘ Nat.succ)
        = stretches p (p a) as := by
      rw [stretches_eq_filterMap (p a) as]
      exact List.filterMap_congr fun i _ => openedAt_succ was a as i
    rw [List.length_cons, List.range_succ_eq_map, List.filterMap_cons, List.filterMap_map, htail,
      stretches]
    cases hp : p a <;> cases was <;> simp [openedAt, before, hp]

/-- The stretches opened at position `k` or later. -/
def openedFrom (p : α → Bool) (was : Bool) (k : Nat) (as : List α) : List (Stretch α) :=
  (List.range as.length).filterMap fun i => if k ≤ i then openedAt p was as i else none

/-- They are the stretches of what is left at `k`, from the level there. -/
theorem openedFrom_eq_stretches : ∀ (was : Bool) {k : Nat} (as : List α), k ≤ as.length →
    openedFrom p was k as = stretches p (level p was (as.take k)) (as.drop k)
  | was, 0, as, _ => by
    rw [List.take_zero, List.drop_zero, level, stretches_eq_filterMap]
    exact List.filterMap_congr fun i _ => if_pos (Nat.zero_le i)
  | _, k + 1, [], h => absurd h (Nat.not_succ_le_zero k)
  | was, k + 1, a :: as, h => by
    rw [List.take_succ_cons, List.drop_succ_cons, level,
      ← openedFrom_eq_stretches (p a) as (Nat.le_of_succ_le_succ h)]
    unfold openedFrom
    rw [List.length_cons, List.range_succ_eq_map, List.filterMap_cons,
      if_neg (Nat.not_succ_le_zero k), List.filterMap_map]
    refine List.filterMap_congr fun i _ => ?_
    rw [Function.comp_apply, openedAt_succ]
    simp only [Nat.succ_eq_add_one, Nat.add_le_add_iff_right]

/-- One more sample. -/
theorem openedFrom_concat {was : Bool} {k : Nat} {as : List α} (h : k ≤ as.length) (b : α) :
    openedFrom p was k (as ++ [b])
      = (observe p (level p was as, openedFrom p was k as) b).2 := by
  have h' : k ≤ (as ++ [b]).length := by rw [List.length_append]; omega
  rw [openedFrom_eq_stretches was _ h', openedFrom_eq_stretches was as h,
    List.take_append_of_le_length h, List.drop_append_of_le_length h, stretches_concat,
    ← level_append, List.take_append_drop]

/-- Nothing has been opened since the last sample. -/
theorem openedFrom_length (was : Bool) (as : List α) : openedFrom p was as.length as = [] := by
  rw [openedFrom_eq_stretches was as (Nat.le_refl _), List.drop_length, stretches]

/-- A stretch that is followed by another has been closed. -/
theorem pairwise_closed : ∀ (was : Bool) (as : List α),
    (stretches p was as).Pairwise fun s _ => s.leave.isSome = true
  | _, [] => List.Pairwise.nil
  | was, a :: as => by
    rw [stretches]
    split
    · next hrise =>
      have ha : p a = true := by simp only [Bool.and_eq_true] at hrise; exact hrise.1
      refine List.Pairwise.cons (fun s hs => ?_) (pairwise_closed (p a) as)
      rw [Option.isSome_iff_ne_none]
      intro hnone
      rw [ha, stretches_true_eq_nil (firstLow_eq_none.mp hnone)] at hs
      cases hs
    · exact pairwise_closed (p a) as

/-- A stretch of samples that are read through `f`. -/
def map {β : Type*} (f : α → β) (s : Stretch α) : Stretch β := ⟨f s.enter, s.leave.map f⟩

theorem stretches_map {β : Type*} {q : β → Bool} (f : α → β) : ∀ (was : Bool) (as : List α),
    stretches q was (as.map f) = (stretches (q ∘ f) was as).map (map f)
  | _, [] => rfl
  | was, a :: as => by
    rw [List.map_cons, stretches, stretches, stretches_map f (q (f a)) as, Function.comp_apply]
    split
    · rw [List.map_cons]
      unfold firstLow map
      rw [List.find?_map]
      rfl
    · rfl

theorem level_map {β : Type*} {q : β → Bool} (f : α → β) : ∀ (was : Bool) (as : List α),
    level q was (as.map f) = level (q ∘ f) was as
  | _, [] => rfl
  | _, a :: as => level_map f (q (f a)) as

theorem openedFrom_map {β : Type*} {q : β → Bool} (f : α → β) {was : Bool} {k : Nat}
    {as : List α} (h : k ≤ as.length) :
    openedFrom q was k (as.map f) = (openedFrom (q ∘ f) was k as).map (map f) := by
  rw [openedFrom_eq_stretches was _ (by rw [List.length_map]; exact h),
    openedFrom_eq_stretches was as h, ← List.map_take, ← List.map_drop, stretches_map, level_map]

/-- A closed stretch goes from a sample to a later one. -/
theorem rel_of_mem_openedFrom {R : α → α → Prop} {was : Bool} {k : Nat} {as : List α}
    (hR : as.Pairwise R) {s : Stretch α} (hs : s ∈ openedFrom p was k as) {b : α}
    (hb : s.leave = some b) : R s.enter b := by
  obtain ⟨i, -, hi⟩ := List.mem_filterMap.mp hs
  split at hi
  · unfold openedAt at hi
    obtain ⟨a, ha, hi⟩ := Option.bind_eq_some_iff.mp hi
    split at hi
    · cases hi
      obtain ⟨hlt, rfl⟩ := List.getElem?_eq_some_iff.mp ha
      have hmem : b ∈ as.drop (i + 1) := List.mem_of_find?_eq_some hb
      obtain ⟨j, hj, rfl⟩ := List.mem_iff_getElem.mp hmem
      rw [List.getElem_drop]
      exact List.pairwise_iff_getElem.mp hR i _ hlt _ (by omega)
    · cases hi
  · cases hi

/-- Closing the last stretch touches no other, and only gives an open one its end. -/
theorem mem_closeLast {b : α} {log : List (Stretch α)} {s : Stretch α}
    (hs : s ∈ closeLast b log) : s ∈ log ∨ ∃ a, ⟨a, none⟩ ∈ log ∧ s = ⟨a, some b⟩ := by
  rcases List.eq_nil_or_concat log with rfl | ⟨init, ⟨a, c⟩, rfl⟩
  · exact Or.inl hs
  · rw [List.concat_eq_append] at hs ⊢
    cases c with
    | some c =>
      rw [closeLast_concat_closed] at hs
      exact Or.inl hs
    | none =>
      rw [closeLast_concat_open] at hs
      rcases List.mem_append.mp hs with hs | hs
      · exact Or.inl (List.mem_append_left _ hs)
      · exact Or.inr ⟨a, List.mem_append_right _ List.mem_cons_self, List.mem_singleton.mp hs⟩

end Stretch

end Infra
