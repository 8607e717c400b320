import Mathlib.Algebra.Group.Action.Defs
import Mathlib.Algebra.Order.BigOperators.Group.List
import Avrsim.Properties.TotalCost

/-!
# The statistics of a log

`totalCycles`, `shortest` and `longest` are three loops over the same visits. They agree with each
other whatever was recorded, as long as the cycles that were passed in never went back.

* `TraceCall` — a call of the three functions that change a log
* `Ordered` — visits that follow one another, which is what those calls preserve
* `consistent_of_calls` — the statistics of any log that was made by such calls
-/

namespace Avrsim

/-- One call of a function that changes a log. -/
inductive TraceCall where
  | enter (cycle : UInt64)
  | leave (cycle : UInt64)
  | clear
deriving DecidableEq, Repr

namespace TraceCall

/-- The cycle that is passed in. -/
def cycle? : TraceCall → Option UInt64
  | .enter cycle => some cycle
  | .leave cycle => some cycle
  | .clear => none

def apply (t : Trace) : TraceCall → Trace
  | .enter cycle => t.enter cycle
  | .leave cycle => t.leave cycle
  | .clear => t.clear

end TraceCall

/-- The log that calls make, from an empty one. -/
def logOf (calls : List TraceCall) : Trace := calls.foldl TraceCall.apply Trace.new

/-- The cycles that are passed in never go back. -/
def NonDecreasing (calls : List TraceCall) : Prop :=
  (calls.filterMap TraceCall.cycle?).Pairwise fun a b => a ≤ b

/-- The completed visits. -/
def Trace.done (t : Trace) : List Visit := t.visits.filter Visit.complete

/-! ## Visits that follow one another -/

/-- A visit that, when it is complete, costs what is between its entry and its exit. -/
structure Visit.Sound (v : Visit) (now : UInt64) : Prop where
  entry : v.entry ≤ now
  exit : v.complete = true → v.exit ≤ now
  cost : v.complete = true → v.entry.toNat + v.cycles.toNat = v.exit.toNat

/-- A visit is entered no earlier than the one before it, and not before that one is over. -/
def Visit.Before (v w : Visit) : Prop :=
  v.entry ≤ w.entry ∧ (v.complete = true → v.exit ≤ w.entry)

/-- Every visit is sound at this cycle, and they follow one another. -/
structure Trace.Ordered (t : Trace) (now : UInt64) : Prop where
  sound : ∀ visit ∈ t.visits, visit.Sound now
  follow : t.visits.Pairwise Visit.Before

theorem ordered_new (now : UInt64) : Trace.new.Ordered now :=
  ⟨fun _ hv => absurd hv List.not_mem_nil, List.Pairwise.nil⟩

theorem Visit.Sound.later {v : Visit} {now later : UInt64} (h : v.Sound now) (hle : now ≤ later) :
    v.Sound later :=
  ⟨UInt64.le_trans h.entry hle, fun hv => UInt64.le_trans (h.exit hv) hle, h.cost⟩

theorem Visit.Sound.before {v w : Visit} {now : UInt64} (h : v.Sound now) (hw : now ≤ w.entry) :
    v.Before w :=
  ⟨UInt64.le_trans h.entry hw, fun hv => UInt64.le_trans (h.exit hv) hw⟩

/-- A visit that is closed costs what has passed since its entry. -/
theorem Visit.sound_closed {v : Visit} {now : UInt64} (hentry : v.entry ≤ now) :
    { v with exit := now, cycles := now - v.entry, complete := true : Visit }.Sound now := by
  refine ⟨hentry, fun _ => UInt64.le_refl now, fun _ => ?_⟩
  have hle : v.entry.toNat ≤ now.toNat := hentry
  show v.entry.toNat + (now - v.entry).toNat = now.toNat
  rw [UInt64.toNat_sub_of_le _ _ hentry]
  omega

theorem ordered_enter {t : Trace} {now cycle : UInt64} (h : t.Ordered now) (hle : now ≤ cycle) :
    (t.enter cycle).Ordered cycle := by
  constructor
  · intro v hv
    rw [Trace.enter_visits, List.mem_append, List.mem_singleton] at hv
    rcases hv with hv | rfl
    · exact (h.sound v hv).later hle
    · exact ⟨UInt64.le_refl cycle, fun hopen => (by cases hopen), fun hopen => (by cases hopen)⟩
  · rw [Trace.enter_visits]
    refine List.pairwise_append.mpr ⟨h.follow, List.pairwise_singleton _ _, ?_⟩
    intro v hv w hw
    rw [List.mem_singleton.mp hw]
    exact (h.sound v hv).before hle

theorem ordered_leave {t : Trace} {now cycle : UInt64} (h : t.Ordered now) (hle : now ≤ cycle) :
    (t.leave cycle).Ordered cycle := by
  have hsound : ∀ v ∈ t.visits, v.Sound cycle := fun v hv => (h.sound v hv).later hle
  rcases List.eq_nil_or_concat t.visits with hnil | ⟨init, last, hconcat⟩
  · rw [Trace.leave_of_nil hnil]
    exact ⟨hsound, h.follow⟩
  · rw [List.concat_eq_append] at hconcat
    cases hlast : last.complete with
    | true =>
      rw [Trace.leave_of_complete hconcat hlast]
      exact ⟨hsound, h.follow⟩
    | false =>
      -- the open visit is closed, and keeps its entry
      rw [hconcat] at hsound
      have hfollow := h.follow
      rw [hconcat, List.pairwise_append] at hfollow
      obtain ⟨hinit, -, hbefore⟩ := hfollow
      have hentry : last.entry ≤ cycle := (hsound last (by simp)).entry
      constructor
      · intro v hv
        rw [Trace.leave_of_open hconcat hlast, List.mem_append, List.mem_singleton] at hv
        rcases hv with hv | rfl
        · exact hsound v (List.mem_append_left _ hv)
        · exact Visit.sound_closed hentry
      · rw [Trace.leave_of_open hconcat hlast]
        refine List.pairwise_append.mpr ⟨hinit, List.pairwise_singleton _ _, ?_⟩
        intro v hv w hw
        rw [List.mem_singleton.mp hw]
        exact hbefore v hv last (List.mem_singleton.mpr rfl)

theorem ordered_apply {t : Trace} {now : UInt64} {call : TraceCall} (h : t.Ordered now)
    (hle : ∀ cycle ∈ call.cycle?, now ≤ cycle) :
    (call.apply t).Ordered (call.cycle?.getD now) := by
  cases call with
  | enter cycle => exact ordered_enter h (hle cycle rfl)
  | leave cycle => exact ordered_leave h (hle cycle rfl)
  | clear => exact ordered_new now

/-- What calls make of a log that is in order is in order. -/
theorem ordered_foldl {calls : List TraceCall} :
    ∀ {t : Trace} {now : UInt64}, t.Ordered now → NonDecreasing calls →
      (∀ cycle ∈ calls.filterMap TraceCall.cycle?, now ≤ cycle) →
      ∃ later, (calls.foldl TraceCall.apply t).Ordered later := by
  induction calls with
  | nil => exact fun h _ _ => ⟨_, h⟩
  | cons call calls ih =>
    intro t now h hsorted hnow
    rw [List.foldl_cons]
    unfold NonDecreasing at hsorted
    cases hcycle : call.cycle? with
    | none =>
      rw [List.filterMap_cons_none hcycle] at hsorted hnow
      have hstep : (call.apply t).Ordered (call.cycle?.getD now) :=
        ordered_apply h (by simp [hcycle])
      rw [hcycle, Option.getD_none] at hstep
      exact ih hstep hsorted hnow
    | some cycle =>
      rw [List.filterMap_cons_some hcycle] at hsorted hnow
      obtain ⟨hfirst, hrest⟩ := List.pairwise_cons.mp hsorted
      have hle : now ≤ cycle := hnow cycle List.mem_cons_self
      have hstep : (call.apply t).Ordered (call.cycle?.getD now) :=
        ordered_apply h (by simpa [hcycle] using hle)
      rw [hcycle, Option.getD_some] at hstep
      exact ih hstep hrest hfirst

theorem ordered_logOf {calls : List TraceCall} (h : NonDecreasing calls) :
    ∃ now, (logOf calls).Ordered now :=
  ordered_foldl (ordered_new 0) h fun _ _ => UInt64.zero_le

/-! ## The total -/

/-- The completed visits are all that is added up. -/
theorem spent_eq_sum_done (t : Trace) : t.spent = (t.done.map fun v => v.cycles.toNat).sum := by
  unfold Trace.spent Trace.done
  induction t.visits with
  | nil => rfl
  | cons v visits ih =>
    rw [List.map_cons, List.sum_cons, ih]
    cases hv : v.complete with
    | true =>
      rw [List.filter_cons_of_pos hv, List.map_cons, List.sum_cons, Visit.spent, if_pos hv]
    | false =>
      have hnot : ¬ v.complete = true := by simp [hv]
      rw [List.filter_cons_of_neg hnot, Visit.spent, if_neg hnot, Nat.zero_add]

/-- Visits that follow one another cost no more than what is between the first and the last. -/
theorem sum_cycles_le_span : ∀ {visits : List Visit} {first last : Visit},
    visits.Pairwise Visit.Before → (∀ v ∈ visits, v.complete = true) →
    (∀ v ∈ visits, v.entry.toNat + v.cycles.toNat = v.exit.toNat) → visits.head? = some first →
    visits.getLast? = some last →
    first.entry.toNat + (visits.map fun v => v.cycles.toNat).sum ≤ last.exit.toNat
  | [], _, _, _, _, _, hfirst, _ => by cases hfirst
  | [v], _, _, _, _, hcost, hfirst, hlast => by
    rw [List.getLast?_singleton] at hlast
    cases hfirst
    cases hlast
    have hv := hcost v List.mem_cons_self
    rw [List.map_singleton, List.sum_singleton]
    omega
  | v :: w :: visits, first, last, hfollow, hdone, hcost, hfirst, hlast => by
    cases hfirst
    obtain ⟨hbefore, hfollow⟩ := List.pairwise_cons.mp hfollow
    have hover : v.exit.toNat ≤ w.entry.toNat :=
      (hbefore w List.mem_cons_self).2 (hdone v List.mem_cons_self)
    have hv := hcost v List.mem_cons_self
    rw [List.getLast?_cons_cons] at hlast
    have hrest := sum_cycles_le_span hfollow (fun u hu => hdone u (List.mem_cons_of_mem _ hu))
      (fun u hu => hcost u (List.mem_cons_of_mem _ hu)) rfl hlast
    rw [List.map_cons, List.sum_cons]
    omega

section

variable {t : Trace} {now : UInt64} (h : t.Ordered now)

include h

theorem cost_of_mem_done {v : Visit} (hv : v ∈ t.done) :
    v.entry.toNat + v.cycles.toNat = v.exit.toNat := by
  obtain ⟨hmem, hcomplete⟩ := List.mem_filter.mp hv
  exact (h.sound v hmem).cost hcomplete

/-- The completed visits of a log that is in order, between its first entry and their last exit. -/
theorem spent_le_span {first last : Visit} (hfirst : t.visits.head? = some first)
    (hlast : t.done.getLast? = some last) : first.entry.toNat + t.spent ≤ last.exit.toNat := by
  obtain ⟨opening, hopening⟩ : ∃ opening, t.done.head? = some opening := by
    cases hdone : t.done with
    | nil =>
      rw [hdone] at hlast
      cases hlast
    | cons v visits => exact ⟨v, rfl⟩
  have hcomplete : ∀ v ∈ t.done, v.complete = true := fun v hv => (List.mem_filter.mp hv).2
  have hspan : opening.entry.toNat + (t.done.map fun v => v.cycles.toNat).sum ≤ last.exit.toNat :=
    sum_cycles_le_span (h.follow.filter _) hcomplete (fun v hv => cost_of_mem_done h hv) hopening
      hlast
  -- no completed visit was entered before the first of all
  have hentry : first.entry.toNat ≤ opening.entry.toNat := by
    obtain ⟨visits, hvisits⟩ := List.head?_eq_some_iff.mp hfirst
    have hmem : opening ∈ t.visits := List.mem_of_mem_filter (List.mem_of_head? hopening)
    have hfollow := h.follow
    rw [hvisits] at hmem hfollow
    rcases List.mem_cons.mp hmem with rfl | hmem
    · exact Nat.le_refl _
    · exact ((List.pairwise_cons.mp hfollow).1 opening hmem).1
  rw [spent_eq_sum_done]
  omega

theorem spent_lt : t.spent < 2 ^ 64 := by
  cases hlast : t.done.getLast? with
  | none =>
    rw [spent_eq_sum_done, List.getLast?_eq_none_iff.mp hlast]
    decide
  | some last =>
    have hmem : last ∈ t.visits := List.mem_of_mem_filter (List.mem_of_getLast? hlast)
    obtain ⟨first, visits, hvisits⟩ := List.exists_cons_of_ne_nil (List.ne_nil_of_mem hmem)
    have hspan := spent_le_span h (by rw [hvisits]; rfl) hlast
    have hlt := last.exit.toNat_lt
    omega

end

/-! ## The cheapest and the dearest -/

/-- What `shortest` does with a visit. -/
def cheaper (best : UInt64 × Bool) (visit : Visit) : UInt64 × Bool :=
  if !visit.complete then best
  else (if !best.2 || visit.cycles < best.1 then visit.cycles else best.1, true)

theorem cheaper_of_open {v : Visit} (hv : v.complete = false) (best : UInt64 × Bool) :
    cheaper best v = best := by
  simp [cheaper, hv]

theorem foldl_cheaper : ∀ (visits : List Visit) (best : UInt64),
    (visits.foldl cheaper (best, true)).1.toNat
      = ((visits.filter Visit.complete).map fun v => v.cycles.toNat).foldl min best.toNat
  | [], _ => rfl
  | v :: visits, best => by
    rw [List.foldl_cons]
    cases hv : v.complete with
    | false =>
      rw [cheaper_of_open hv, foldl_cheaper visits, List.filter_cons_of_neg (by simp [hv])]
    | true =>
      have hstep : cheaper (best, true) v = (if v.cycles < best then v.cycles else best, true) := by
        simp [cheaper, hv]
      have hmin : (if v.cycles < best then v.cycles else best).toNat
          = min best.toNat v.cycles.toNat := by
        simp only [UInt64.lt_iff_toNat_lt]
        split <;> omega
      rw [hstep, foldl_cheaper visits, hmin, List.filter_cons_of_pos hv, List.map_cons,
        List.foldl_cons]

theorem foldl_cheaper_start : ∀ visits : List Visit,
    (visits.foldl cheaper (0, false)).1.toNat
      = (((visits.filter Visit.complete).map fun v => v.cycles.toNat).min?).getD 0
  | [] => rfl
  | v :: visits => by
    rw [List.foldl_cons]
    cases hv : v.complete with
    | false =>
      rw [cheaper_of_open hv, foldl_cheaper_start visits, List.filter_cons_of_neg (by simp [hv])]
    | true =>
      -- the first completed visit is the best so far, whatever it cost
      have hstep : cheaper (0, false) v = (v.cycles, true) := by simp [cheaper, hv]
      rw [hstep, foldl_cheaper, List.filter_cons_of_pos hv, List.map_cons, List.min?_cons',
        Option.getD_some]

theorem shortest_eq (t : Trace) :
    t.shortest.toNat = ((t.done.map fun v => v.cycles.toNat).min?).getD 0 :=
  foldl_cheaper_start t.visits

theorem foldl_longest : ∀ (visits : List Visit) (worst : UInt64),
    (visits.foldl
        (fun worst visit =>
          if visit.complete && visit.cycles > worst then visit.cycles else worst) worst).toNat
      = ((visits.filter Visit.complete).map fun v => v.cycles.toNat).foldl max worst.toNat
  | [], _ => rfl
  | v :: visits, worst => by
    rw [List.foldl_cons, foldl_longest visits]
    cases hv : v.complete with
    | false => rw [List.filter_cons_of_neg (by simp [hv])]; rfl
    | true =>
      have hmax : (if (true && v.cycles > worst) = true then v.cycles else worst).toNat
          = max worst.toNat v.cycles.toNat := by
        simp only [Bool.true_and, decide_eq_true_eq, gt_iff_lt, UInt64.lt_iff_toNat_lt]
        split <;> omega
      rw [hmax, List.filter_cons_of_pos hv, List.map_cons, List.foldl_cons]

theorem longest_eq (t : Trace) :
    t.longest.toNat = ((t.done.map fun v => v.cycles.toNat).max?).getD 0 := by
  unfold Trace.longest
  rw [foldl_longest, UInt64.toNat_zero]
  show (t.done.map fun v => v.cycles.toNat).foldl max 0 = _
  cases t.done with
  | nil => rfl
  | cons v visits =>
    rw [List.map_cons, List.foldl_cons, List.max?_cons', Option.getD_some, Nat.zero_max]

/-! ## All three together -/

/-- What the three statistics of a log say about its completed visits, and about nothing else. -/
structure Trace.Consistent (t : Trace) : Prop where
  exact : t.totalCycles.toNat = (t.done.map fun v => v.cycles.toNat).sum
  cost : ∀ v ∈ t.done, v.entry.toNat + v.cycles.toNat = v.exit.toNat
  shortest_le : t.done.length * t.shortest.toNat ≤ t.totalCycles.toNat
  le_longest : t.totalCycles.toNat ≤ t.done.length * t.longest.toNat
  span : ∀ first last, t.visits.head? = some first → t.done.getLast? = some last →
    first.entry.toNat + t.totalCycles.toNat ≤ last.exit.toNat
  actual : t.done ≠ [] →
    (∃ v ∈ t.done, v.cycles = t.shortest) ∧ ∃ v ∈ t.done, v.cycles = t.longest
  empty : t.done = [] → t.totalCycles = 0 ∧ t.shortest = 0 ∧ t.longest = 0
  opened : ∀ t' : Trace, t'.done = t.done →
    t'.totalCycles = t.totalCycles ∧ t'.shortest = t.shortest ∧ t'.longest = t.longest

theorem totalCycles_eq (t : Trace) : t.totalCycles.toNat = t.spent % 2 ^ 64 := by
  unfold Trace.totalCycles
  rw [foldl_totalCycles, UInt64.toNat_zero, Nat.zero_add]
  rfl

/-- The statistics are read off the completed visits, in whatever log these stand. -/
theorem statistics_congr {t t' : Trace} (h : t'.done = t.done) :
    t'.totalCycles = t.totalCycles ∧ t'.shortest = t.shortest ∧ t'.longest = t.longest := by
  refine ⟨?_, ?_, ?_⟩ <;> apply UInt64.toNat_inj.mp
  · rw [totalCycles_eq, totalCycles_eq, spent_eq_sum_done, spent_eq_sum_done, h]
  · rw [shortest_eq, shortest_eq, h]
  · rw [longest_eq, longest_eq, h]

/-- No completed visit is cheaper than `shortest`, and one of them costs that much. -/
theorem shortest_spec {t : Trace} (h : t.done ≠ []) :
    (∃ v ∈ t.done, v.cycles = t.shortest)
      ∧ ∀ v ∈ t.done, t.shortest.toNat ≤ v.cycles.toNat := by
  have hne : (t.done.map fun v => v.cycles.toNat) ≠ [] := by simpa using h
  obtain ⟨least, hleast⟩ := Option.ne_none_iff_exists'.mp (mt List.min?_eq_none_iff.mp hne)
  have hshortest : t.shortest.toNat = least := by rw [shortest_eq, hleast, Option.getD_some]
  obtain ⟨hmem, hle⟩ := List.min?_eq_some_iff.mp hleast
  obtain ⟨v, hv, hcost⟩ := List.mem_map.mp hmem
  refine ⟨⟨v, hv, UInt64.toNat_inj.mp (hcost.trans hshortest.symm)⟩, fun w hw => ?_⟩
  rw [hshortest]
  exact hle _ (List.mem_map_of_mem hw)

/-- No completed visit is dearer than `longest`, and one of them costs that much. -/
theorem longest_spec {t : Trace} (h : t.done ≠ []) :
    (∃ v ∈ t.done, v.cycles = t.longest)
      ∧ ∀ v ∈ t.done, v.cycles.toNat ≤ t.longest.toNat := by
  have hne : (t.done.map fun v => v.cycles.toNat) ≠ [] := by simpa using h
  obtain ⟨most, hmost⟩ := Option.ne_none_iff_exists'.mp (mt List.max?_eq_none_iff.mp hne)
  have hlongest : t.longest.toNat = most := by rw [longest_eq, hmost, Option.getD_some]
  obtain ⟨hmem, hle⟩ := List.max?_eq_some_iff.mp hmost
  obtain ⟨v, hv, hcost⟩ := List.mem_map.mp hmem
  refine ⟨⟨v, hv, UInt64.toNat_inj.mp (hcost.trans hlongest.symm)⟩, fun w hw => ?_⟩
  rw [hlongest]
  exact hle _ (List.mem_map_of_mem hw)

theorem statistics_of_nil {t : Trace} (h : t.done = []) :
    t.totalCycles = 0 ∧ t.shortest = 0 ∧ t.longest = 0 :=
  statistics_congr (t := Trace.new) h

theorem consistent_of_ordered {t : Trace} {now : UInt64} (h : t.Ordered now) : t.Consistent := by
  have hexact : t.totalCycles.toNat = (t.done.map fun v => v.cycles.toNat).sum := by
    rw [totalCycles_toNat (spent_lt h), spent_eq_sum_done]
  have hbounds : t.done.length * t.shortest.toNat ≤ t.totalCycles.toNat
      ∧ t.totalCycles.toNat ≤ t.done.length * t.longest.toNat := by
    by_cases hdone : t.done = []
    · obtain ⟨htotal, -, -⟩ := statistics_of_nil hdone
      rw [hdone, htotal]
      simp
    · have hlow := List.card_nsmul_le_sum (t.done.map fun v => v.cycles.toNat) t.shortest.toNat
        (List.forall_mem_map.mpr (shortest_spec hdone).2)
      have hhigh := List.sum_le_card_nsmul (t.done.map fun v => v.cycles.toNat) t.longest.toNat
        (List.forall_mem_map.mpr (longest_spec hdone).2)
      rw [List.length_map, smul_eq_mul] at hlow hhigh
      rw [hexact]
      exact ⟨hlow, hhigh⟩
  exact {
    exact := hexact
    cost := fun _ hv => cost_of_mem_done h hv
    shortest_le := hbounds.1
    le_longest := hbounds.2
    span := fun first last hfirst hlast => by
      rw [totalCycles_toNat (spent_lt h)]
      exact spent_le_span h hfirst hlast
    actual := fun hdone => ⟨(shortest_spec hdone).1, (longest_spec hdone).1⟩
    empty := statistics_of_nil
    opened := fun _ => statistics_congr }

/-- **The statistics of a log are consistent**, whatever calls made it, if no cycle went back. -/
theorem consistent_of_calls {calls : List TraceCall} (h : NonDecreasing calls) :
    (logOf calls).Consistent := by
  obtain ⟨now, hordered⟩ := ordered_logOf h
  exact consistent_of_ordered hordered

/-- A visit left open by a second `enter`, one that costs nothing, and one of five cycles. -/
theorem consistent_of_calls_reentered :
    (logOf [.leave 0, .enter 1, .enter 2, .leave 2, .leave 3, .enter 4, .leave 9,
        .enter 9]).Consistent
      ∧ (logOf [.leave 0, .enter 1, .enter 2, .leave 2, .leave 3, .enter 4, .leave 9,
        .enter 9]).done = [⟨2, 2, 0, true⟩, ⟨4, 9, 5, true⟩] := by
  refine ⟨consistent_of_calls ?_, by decide⟩
  unfold NonDecreasing
  decide

end Avrsim
