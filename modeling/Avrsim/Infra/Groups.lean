import Mathlib.Data.List.SplitBy

/-!
# Groups of neighbours

A list cut into groups wherever a relation between neighbours fails, told by the positions at
which the groups begin.

* `breaksFrom` — the positions found by comparing neighbours
* `startsFrom` — the positions at which given groups begin
* `breaksFrom_eq_startsFrom_iff` — they are the same exactly when the groups are the ones that the
  relation makes
-/

namespace Infra.Groups

variable {α : Type*} (r : α → α → Bool)

/-- The positions of the elements that are not related to the one before. The first is at `i`. -/
def breaksFrom : Nat → List α → List Nat
  | i, x :: y :: l =>
    if r x y then breaksFrom (i + 1) (y :: l) else (i + 1) :: breaksFrom (i + 1) (y :: l)
  | _, _ => []

/-- The positions at which some groups begin. The first is at `i`. -/
def startsFrom : Nat → List (List α) → List Nat
  | _, [] => []
  | i, g :: gs => i :: startsFrom (i + g.length) gs

/-- The last of one group is not related to the first of the next. -/
def Apart (g g' : List α) : Prop := ∀ x ∈ g.getLast?, ∀ y ∈ g'.head?, r x y = false

/-- The groups are those the relation makes: neighbours in one are related, and no others. -/
structure Grouped (gs : List (List α)) : Prop where
  ne : [] ∉ gs
  chain : ∀ g ∈ gs, g.IsChain fun x y => r x y
  apart : gs.IsChain (Apart r)

variable {r}

/-! ## The positions of the breaks -/

/-- A loop over the indices that compares each element with the one before. -/
theorem filter_range'_eq_breaksFrom : ∀ {l : List α} {i : Nat} {p : Nat → Bool},
    (∀ j (h : j + 1 < l.length), p (i + 1 + j) = !r l[j] l[j + 1]) →
      (List.range' (i + 1) (l.length - 1)).filter p = breaksFrom r i l
  | [], _, _, _ => rfl
  | [_], _, _, _ => rfl
  | x :: y :: l, i, p, h => by
    have hfirst : p (i + 1) = !r x y := h 0 (by simp)
    have hrest : (List.range' (i + 1 + 1) ((y :: l).length - 1)).filter p
        = breaksFrom r (i + 1) (y :: l) := by
      refine filter_range'_eq_breaksFrom fun j hj => ?_
      have hnext := h (j + 1) (by simpa using hj)
      have hindex : i + 1 + 1 + j = i + 1 + (j + 1) := by omega
      rw [hindex, hnext]
      rfl
    have hlength : (x :: y :: l).length - 1 = ((y :: l).length - 1) + 1 := rfl
    rw [hlength, List.range'_succ, List.filter_cons, hfirst, hrest, breaksFrom]
    cases r x y <;> rfl

/-- There is no break inside a chain, and one after it. -/
theorem breaksFrom_append : ∀ {g : List α} (hne : g ≠ []) {m : List α} {i : Nat},
    g.IsChain (fun x y => r x y) → (∀ y ∈ m.head?, r (g.getLast hne) y = false) →
      breaksFrom r i (g ++ m)
        = if m.isEmpty then [] else (i + g.length) :: breaksFrom r (i + g.length) m
  | [], hne, _, _, _, _ => absurd rfl hne
  | [x], _, [], _, _, _ => rfl
  | [x], _, y :: m, i, _, hapart => by
    have hxy : r x y = false := hapart y rfl
    simp [breaksFrom, hxy]
  | x :: x' :: g, _, m, i, hchain, hapart => by
    rw [List.isChain_cons_cons] at hchain
    have ih := breaksFrom_append (List.cons_ne_nil x' g) (i := i + 1) hchain.2 hapart
    have hlength : i + (x :: x' :: g).length = i + 1 + (x' :: g).length := by
      simp only [List.length_cons]
      omega
    rw [List.cons_append, List.cons_append, breaksFrom, if_pos hchain.1, hlength]
    exact ih

/-- The breaks are where the groups of the relation begin. -/
theorem Grouped.breaksFrom_flatten : ∀ {gs : List (List α)} {i : Nat}, gs ≠ [] → Grouped r gs →
    i :: breaksFrom r i gs.flatten = startsFrom i gs
  | [], _, hne, _ => absurd rfl hne
  | [g], i, _, h => by
    have hg : g ≠ [] := fun heq => h.ne (heq ▸ List.mem_cons_self)
    have hbreaks := breaksFrom_append hg (i := i) (m := []) (h.chain g List.mem_cons_self)
      (fun y hy => by cases hy)
    rw [List.flatten_cons, List.flatten_nil, hbreaks]
    rfl
  | g :: g' :: gs, i, _, h => by
    have hg : g ≠ [] := fun heq => h.ne (heq ▸ List.mem_cons_self)
    have hg' : g' ≠ [] := fun heq => h.ne (heq ▸ List.mem_cons_of_mem _ List.mem_cons_self)
    have hapart := List.isChain_cons_cons.mp h.apart
    have hrest : Grouped r (g' :: gs) :=
      ⟨fun hmem => h.ne (List.mem_cons_of_mem _ hmem),
        fun g hmem => h.chain g (List.mem_cons_of_mem _ hmem), hapart.2⟩
    have hhead : ∀ y ∈ (g' :: gs).flatten.head?, r (g.getLast hg) y = false := by
      intro y hy
      rw [List.flatten_cons, List.head?_append, List.head?_eq_some_head hg', Option.some_or,
        ← List.head?_eq_some_head hg'] at hy
      exact hapart.1 _ (List.getLast?_eq_some_getLast hg) y hy
    have hne : (g' :: gs).flatten.isEmpty = false := by
      rw [List.isEmpty_eq_false_iff, List.flatten_cons]
      exact List.append_ne_nil_of_left_ne_nil hg' _
    rw [List.flatten_cons, breaksFrom_append hg (h.chain g List.mem_cons_self) hhead, hne,
      if_neg (by simp), Grouped.breaksFrom_flatten (List.cons_ne_nil g' gs) hrest]
    rfl

/-! ## Groups are told apart by where they begin -/

theorem startsFrom_injective : ∀ {gs gs' : List (List α)} {i : Nat},
    gs.flatten = gs'.flatten → startsFrom i gs = startsFrom i gs' → gs = gs'
  | [], [], _, _, _ => rfl
  | [], _ :: _, _, _, h => by cases h
  | _ :: _, [], _, _, h => by cases h
  | [g], [g'], _, hflat, _ => by simpa using hflat
  | [_], _ :: _ :: _, _, _, h => by cases h
  | _ :: _ :: _, [_], _, _, h => by cases h
  | g :: h :: gs, g' :: h' :: gs', i, hflat, hstarts => by
    have htail : startsFrom (i + g.length) (h :: gs) = startsFrom (i + g'.length) (h' :: gs') :=
      (List.cons.inj hstarts).2
    have hlength : g.length = g'.length := by
      have hhead : i + g.length = i + g'.length := (List.cons.inj htail).1
      omega
    have hflat' : g ++ (h :: gs).flatten = g' ++ (h' :: gs').flatten := hflat
    obtain ⟨rfl, hrest⟩ := List.append_inj hflat' hlength
    rw [startsFrom_injective hrest htail]

/-- **The breaks are where the groups begin exactly when the groups are those of the relation.** -/
theorem breaksFrom_eq_startsFrom_iff {gs : List (List α)} (hgs : gs ≠ []) (hne : [] ∉ gs)
    (i : Nat) : i :: breaksFrom r i gs.flatten = startsFrom i gs ↔ Grouped r gs := by
  constructor
  · intro h
    -- what the relation makes of the list begins at the breaks, hence where these groups do
    have hsplit : Grouped r (gs.flatten.splitBy r) := by
      refine ⟨List.nil_notMem_splitBy r _, fun _ => List.isChain_of_mem_splitBy, ?_⟩
      refine (List.isChain_getLast_head_splitBy r _).imp ?_
      rintro g g' ⟨hne, hne', hr⟩ x hx y hy
      rw [List.getLast?_eq_some_getLast hne] at hx
      rw [List.head?_eq_some_head hne'] at hy
      cases hx
      cases hy
      exact hr
    have hflat : gs.flatten ≠ [] := by
      cases gs with
      | nil => exact absurd rfl hgs
      | cons g gs =>
        rw [List.flatten_cons]
        exact List.append_ne_nil_of_left_ne_nil (fun heq => hne (heq ▸ List.mem_cons_self)) _
    have hbreaks := hsplit.breaksFrom_flatten (i := i) (List.splitBy_ne_nil.mpr hflat)
    rw [List.flatten_splitBy, h] at hbreaks
    rw [startsFrom_injective (List.flatten_splitBy r gs.flatten).symm hbreaks]
    exact hsplit
  · exact Grouped.breaksFrom_flatten hgs

end Infra.Groups
