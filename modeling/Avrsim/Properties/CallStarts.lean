import Mathlib.Algebra.Order.Ring.Nat
import Avrsim.Infra.Groups
import Avrsim.Trace

/-!
# Where calls start

`callStarts` tells the calls of a function apart by the gaps between its visits: one that is longer
than half of the largest is a fresh call. For calls at a fixed period the largest gap is between
two calls, and it shrinks as the calls get longer, so that half of it can fall below a gap inside a
call long before the call takes half its period.

* `Trace.callStarts_eq` — the positions at which a gap is longer than half of the largest
* `PeriodicCalls` — calls at a fixed period, each with one or more visits
* `callStarts_eq_firstVisits_iff` — when they are told apart
-/

namespace Avrsim

open Infra.Groups

/-! ## The loops of `callStarts` -/

theorem foldl_largest_le (f : Nat → UInt64) (x : Nat) : ∀ (indices : List Nat) (largest : UInt64),
    (indices.foldl (fun largest index => if f index > largest then f index else largest)
        largest).toNat ≤ x
      ↔ largest.toNat ≤ x ∧ ∀ index ∈ indices, (f index).toNat ≤ x
  | [], _ => by simp
  | index :: indices, largest => by
    rw [List.foldl_cons, foldl_largest_le f x indices, List.forall_mem_cons]
    split
    · next h =>
      rw [gt_iff_lt, UInt64.lt_iff_toNat_lt] at h
      constructor
      · rintro ⟨h₁, h₂⟩
        exact ⟨by omega, h₁, h₂⟩
      · rintro ⟨-, h₁, h₂⟩
        exact ⟨h₁, h₂⟩
    · next h =>
      rw [gt_iff_lt, UInt64.lt_iff_toNat_lt] at h
      constructor
      · rintro ⟨h₁, h₂⟩
        exact ⟨h₁, by omega, h₂⟩
      · rintro ⟨h₁, -, h₂⟩
        exact ⟨h₁, h₂⟩

namespace Trace

/-- The entries of the visits, in exact arithmetic. -/
def entries (t : Trace) : List Nat := t.visits.map fun v => v.entry.toNat

theorem length_entries (t : Trace) : t.entries.length = t.visits.length := List.length_map _

/-- The gap between neighbours of a log whose entries go up. -/
theorem toNat_gap {t : Trace} (hsorted : t.entries.Pairwise (· ≤ ·)) {j : Nat}
    (hj : j + 1 < t.entries.length) :
    (t.gap j (j + 1)).toNat = t.entries[j + 1] - t.entries[j] := by
  have hj' : j + 1 < t.visits.length := by rwa [length_entries] at hj
  have hle : t.entries[j] ≤ t.entries[j + 1] :=
    List.pairwise_iff_getElem.mp hsorted j (j + 1) (by omega) hj (by omega)
  simp only [entries, List.getElem_map] at hle ⊢
  unfold gap
  rw [List.getElem?_eq_getElem (by omega), List.getElem?_eq_getElem hj']
  exact UInt64.toNat_sub_of_le _ _ (UInt64.le_iff_toNat_le.mpr hle)

/-- What the first loop of `callStarts` finds. -/
def largestGap (t : Trace) : UInt64 :=
  (List.range' 1 (t.visits.length - 1)).foldl
    (fun largest index =>
      if t.gap (index - 1) index > largest then t.gap (index - 1) index else largest) 0

/-- It is the largest gap between neighbours. -/
theorem largestGap_le_iff {t : Trace} (hsorted : t.entries.Pairwise (· ≤ ·)) (x : Nat) :
    t.largestGap.toNat ≤ x ↔ t.entries.IsChain fun e e' => e' - e ≤ x := by
  unfold largestGap
  rw [foldl_largest_le (fun index => t.gap (index - 1) index), List.isChain_iff_getElem]
  constructor
  · rintro ⟨-, h⟩ j hj
    have hj' : j + 1 < t.visits.length := by rwa [length_entries] at hj
    rw [← toNat_gap hsorted hj]
    exact h (j + 1) (List.mem_range'_1.mpr ⟨by omega, by omega⟩)
  · intro h
    refine ⟨Nat.zero_le x, fun index hindex => ?_⟩
    rw [List.mem_range'_1] at hindex
    obtain ⟨j, rfl⟩ : ∃ j, index = j + 1 := ⟨index - 1, by omega⟩
    have hj : j + 1 < t.entries.length := by
      rw [length_entries]
      omega
    rw [Nat.add_sub_cancel, toNat_gap hsorted hj]
    exact h j hj

/-- **The calls start where a gap is longer than half of the largest.** -/
theorem callStarts_eq {t : Trace} (hsorted : t.entries.Pairwise (· ≤ ·))
    (htwo : 2 ≤ t.visits.length) :
    t.callStarts
      = 0 :: breaksFrom (fun e e' => decide (e' - e ≤ t.largestGap.toNat / 2)) 0 t.entries := by
  have hstarts : t.callStarts = 0 :: (List.range' 1 (t.visits.length - 1)).filter
      fun index => t.largestGap / 2 < t.gap (index - 1) index := if_neg (by omega)
  rw [hstarts, ← length_entries]
  congr 1
  refine filter_range'_eq_breaksFrom fun j hj => ?_
  have hindex : 0 + 1 + j = j + 1 := by omega
  have hlt : t.largestGap / 2 < t.gap j (j + 1)
      ↔ ¬ (t.gap j (j + 1)).toNat ≤ t.largestGap.toNat / 2 := by
    rw [UInt64.lt_iff_toNat_lt, UInt64.toNat_div, Nat.not_le]
    rfl
  simp only [hindex, Nat.add_sub_cancel, hlt, ← toNat_gap hsorted hj, decide_not]

end Trace

/-! ## Calls at a fixed period -/

/-- How long after the beginning of a call its last visit is. -/
def spread (call : List Nat) : Nat := call.getLast?.getD 0

/-- The visits of some calls, the first of which begins at `begin`. -/
def visitsFrom (period : Nat) : Nat → List (List Nat) → List (List Nat)
  | _, [] => []
  | begin, call :: calls =>
    call.map (fun offset => begin + offset) :: visitsFrom period (begin + period) calls

/--
At least two calls, one in each period, told by the offsets of their visits: the first visit is at
the beginning of the call, the others follow, and none is later than half a period.
-/
structure PeriodicCalls where
  period : Nat
  start : Nat
  calls : List (List Nat)
  pos : 1 ≤ period
  two : 2 ≤ calls.length
  first : ∀ call ∈ calls, call.head? = some 0
  increasing : ∀ call ∈ calls, call.Pairwise (· < ·)
  half : ∀ call ∈ calls, ∀ offset ∈ call, 2 * offset ≤ period

namespace PeriodicCalls

/-- The entries of the visits, call by call. -/
def visits (c : PeriodicCalls) : List (List Nat) := visitsFrom c.period c.start c.calls

/-- The index of the first visit of each call. -/
def firstVisits (c : PeriodicCalls) : List Nat := startsFrom 0 c.visits

/--
No two neighbouring visits of one call are more than half of some pause between two calls apart,
and the calls do not mix one that lasts exactly half a period with one that has a single visit.
-/
def Separable (c : PeriodicCalls) : Prop :=
  (∀ call ∈ c.calls, call.IsChain fun offset offset' =>
      ∃ other ∈ c.calls.dropLast, 2 * (offset' - offset) + spread other ≤ c.period)
    ∧ ¬ ((∃ call ∈ c.calls.dropLast, 2 * spread call = c.period)
      ∧ ∃ call ∈ c.calls.dropLast, spread call = 0)

instance separableDecidable (c : PeriodicCalls) : Decidable c.Separable :=
  inferInstanceAs (Decidable (_ ∧ _))

end PeriodicCalls

/-! ## The gaps of such a log -/

section

variable {period : Nat} {R : Nat → Nat → Prop}

/-- What depends on distances only holds inside a call if it does of the offsets. -/
theorem isChain_visitsFrom_iff (hR : ∀ b x y, R (b + x) (b + y) ↔ R x y) :
    ∀ (begin : Nat) (calls : List (List Nat)),
      (∀ g ∈ visitsFrom period begin calls, g.IsChain R) ↔ ∀ call ∈ calls, call.IsChain R
  | _, [] => by simp [visitsFrom]
  | begin, call :: calls => by
    rw [visitsFrom, List.forall_mem_cons, List.forall_mem_cons, isChain_visitsFrom_iff hR _ calls,
      List.isChain_map]
    simp only [hR]

theorem head?_map_of_first {call : List Nat} (h : call.head? = some 0) (begin : Nat) :
    (call.map fun offset => begin + offset).head? = some begin := by
  rw [List.head?_map, h]
  rfl

theorem getLast?_eq_spread {call : List Nat} (h : call.head? = some 0) :
    call.getLast? = some (spread call) := by
  cases hlast : call.getLast? with
  | none =>
    rw [List.getLast?_eq_none_iff.mp hlast] at h
    cases h
  | some offset =>
    unfold spread
    rw [hlast]
    rfl

/-- Between two calls it relates the last visit of the one to the period. -/
theorem isChain_pauses_iff (hR : ∀ b x y, R (b + x) (b + y) ↔ R x y) :
    ∀ (begin : Nat) {calls : List (List Nat)}, (∀ call ∈ calls, call.head? = some 0) →
      ((visitsFrom period begin calls).IsChain
          (fun g g' => ∀ x ∈ g.getLast?, ∀ y ∈ g'.head?, R x y)
        ↔ ∀ call ∈ calls.dropLast, R (spread call) period)
  | _, [], _ => by simp [visitsFrom]
  | _, [_], _ => by simp [visitsFrom]
  | begin, call :: call' :: calls, hfirst => by
    have hcall := hfirst call List.mem_cons_self
    have hcall' := hfirst call' (List.mem_cons_of_mem _ List.mem_cons_self)
    have hlast : (call.map fun offset => begin + offset).getLast? = some (begin + spread call) := by
      rw [List.getLast?_map, getLast?_eq_spread hcall]
      rfl
    have hrest : ∀ c ∈ call' :: calls, c.head? = some 0 :=
      fun c hc => hfirst c (List.mem_cons_of_mem _ hc)
    have ih := isChain_pauses_iff hR (begin + period) hrest
    rw [visitsFrom, visitsFrom, List.isChain_cons_cons, ← visitsFrom, ih, hlast,
      head?_map_of_first hcall', List.dropLast_cons_cons, List.forall_mem_cons]
    simp only [Option.mem_some_iff, forall_eq', hR]

end

namespace PeriodicCalls

variable (c : PeriodicCalls)

theorem nil_notMem_visits : [] ∉ c.visits := by
  have hall : ∀ (begin : Nat) (calls : List (List Nat)), (∀ call ∈ calls, call.head? = some 0) →
      [] ∉ visitsFrom c.period begin calls := by
    intro begin calls
    induction calls generalizing begin with
    | nil => exact fun _ => List.not_mem_nil
    | cons call calls ih =>
      intro hfirst hmem
      rcases List.mem_cons.mp hmem with heq | hmem
      · have hhead := head?_map_of_first (hfirst call List.mem_cons_self) begin
        rw [← heq] at hhead
        cases hhead
      · exact ih _ (fun c hc => hfirst c (List.mem_cons_of_mem _ hc)) hmem
  exact hall c.start c.calls c.first

theorem calls_eq_cons_cons : ∃ call call' calls, c.calls = call :: call' :: calls := by
  have htwo := c.two
  match hcalls : c.calls with
  | [] | [_] =>
    rw [hcalls] at htwo
    exact absurd htwo (by simp)
  | call :: call' :: calls => exact ⟨call, call', calls, rfl⟩

theorem visits_ne_nil : c.visits ≠ [] := by
  obtain ⟨call, call', calls, hcalls⟩ := c.calls_eq_cons_cons
  unfold visits
  rw [hcalls]
  exact List.cons_ne_nil _ _

theorem dropLast_ne_nil : c.calls.dropLast ≠ [] := by
  have htwo := c.two
  rw [← List.length_pos_iff, List.length_dropLast]
  omega

/-- Each of the first two calls has a visit. -/
theorem two_le_length_flatten : 2 ≤ c.visits.flatten.length := by
  obtain ⟨call, call', calls, hcalls⟩ := c.calls_eq_cons_cons
  have hpos : ∀ call ∈ c.calls, 0 < call.length := by
    intro call hcall
    exact List.length_pos_of_mem (List.mem_of_head? (c.first call hcall))
  rw [hcalls] at hpos
  have hcall := hpos call List.mem_cons_self
  have hcall' := hpos call' (List.mem_cons_of_mem _ List.mem_cons_self)
  unfold visits
  rw [hcalls, visitsFrom, visitsFrom, List.flatten_cons, List.flatten_cons, List.length_append,
    List.length_append, List.length_map, List.length_map]
  omega

/-- No call lasts longer than half a period. -/
theorem two_mul_spread_le {call : List Nat} (h : call ∈ c.calls) : 2 * spread call ≤ c.period := by
  have hlast := getLast?_eq_spread (c.first call h)
  exact c.half call h _ (List.mem_of_getLast? hlast)

/-- Neighbours in the log, inside calls and between them. -/
theorem isChain_flatten_iff {R : Nat → Nat → Prop} (hR : ∀ b x y, R (b + x) (b + y) ↔ R x y) :
    c.visits.flatten.IsChain R
      ↔ (∀ call ∈ c.calls, call.IsChain R) ∧ ∀ call ∈ c.calls.dropLast, R (spread call) c.period := by
  rw [List.isChain_flatten c.nil_notMem_visits]
  unfold visits
  rw [isChain_visitsFrom_iff hR, isChain_pauses_iff hR c.start c.first]

/-- The entries go up. -/
theorem pairwise_flatten : c.visits.flatten.Pairwise (· ≤ ·) := by
  rw [← List.isChain_iff_pairwise, c.isChain_flatten_iff fun b x y => Nat.add_le_add_iff_left]
  constructor
  · intro call hcall
    exact ((c.increasing call hcall).imp Nat.le_of_lt).isChain
  · intro call hcall
    have hspread := c.two_mul_spread_le (List.dropLast_subset _ hcall)
    omega

/-- Every gap inside a call is at most half a period. -/
theorem isChain_half {call : List Nat} (h : call ∈ c.calls) :
    call.IsChain fun offset offset' => 2 * (offset' - offset) ≤ c.period := by
  rw [List.isChain_iff_getElem]
  intro j hj
  have hhalf := c.half call h _ (List.getElem_mem hj)
  omega

/-- The largest gap is the longest pause between two calls. -/
theorem largest_le_iff {largest : Nat}
    (hlargest : ∀ x, largest ≤ x ↔ c.visits.flatten.IsChain fun e e' => e' - e ≤ x) (x : Nat) :
    largest ≤ x ↔ ∀ call ∈ c.calls.dropLast, c.period - spread call ≤ x := by
  rw [hlargest, c.isChain_flatten_iff fun b e e' => by rw [Nat.add_sub_add_left],
    and_iff_right_iff_imp]
  intro hpauses call hcall
  -- a pause is at least half a period, and so no shorter than a gap inside a call
  obtain ⟨other, hother⟩ := List.exists_mem_of_ne_nil _ c.dropLast_ne_nil
  have hpause := hpauses other hother
  have hspread := c.two_mul_spread_le (List.dropLast_subset _ hother)
  refine (c.isChain_half hcall).imp fun offset offset' hgap => ?_
  omega

/-- The longest pause is that after the call with the smallest spread. -/
theorem le_largest_iff {largest : Nat}
    (hlargest : ∀ x, largest ≤ x ↔ ∀ call ∈ c.calls.dropLast, c.period - spread call ≤ x)
    (x : Nat) : x ≤ largest ↔ x = 0 ∨ ∃ call ∈ c.calls.dropLast, x + spread call ≤ c.period := by
  constructor
  · intro hx
    by_contra hnot
    rw [not_or] at hnot
    have hbelow : largest ≤ x - 1 := by
      rw [hlargest]
      intro call hcall
      have hlt : ¬ x + spread call ≤ c.period := fun hle => hnot.2 ⟨call, hcall, hle⟩
      omega
    omega
  · rintro (rfl | ⟨call, hcall, hle⟩)
    · exact Nat.zero_le largest
    · have hpause := (hlargest largest).mp le_rfl call hcall
      omega

/-- The gaps inside calls are at most half of the largest. -/
theorem inner_iff {largest : Nat}
    (hlargest : ∀ x, largest ≤ x ↔ ∀ call ∈ c.calls.dropLast, c.period - spread call ≤ x)
    (d : Nat) : d ≤ largest / 2
      ↔ ∃ other ∈ c.calls.dropLast, 2 * d + spread other ≤ c.period := by
  have hhalf : d ≤ largest / 2 ↔ 2 * d ≤ largest := by omega
  rw [hhalf, c.le_largest_iff hlargest, or_iff_right_iff_imp]
  intro hd
  obtain ⟨other, hother⟩ := List.exists_mem_of_ne_nil _ c.dropLast_ne_nil
  have hspread := c.two_mul_spread_le (List.dropLast_subset _ hother)
  exact ⟨other, hother, by omega⟩

/-- The pauses between calls are longer than half of the largest. -/
theorem outer_iff {largest : Nat}
    (hlargest : ∀ x, largest ≤ x ↔ ∀ call ∈ c.calls.dropLast, c.period - spread call ≤ x) :
    (∀ call ∈ c.calls.dropLast, ¬ c.period - spread call ≤ largest / 2)
      ↔ ¬ ((∃ call ∈ c.calls.dropLast, 2 * spread call = c.period)
        ∧ ∃ call ∈ c.calls.dropLast, spread call = 0) := by
  have hpos := c.pos
  constructor
  · rintro hall ⟨⟨call, hcall, heq⟩, other, hother, hzero⟩
    -- the largest gap is then a whole period, and the pause half of one
    have hlong := (hlargest largest).mp le_rfl other hother
    have hshort := hall call hcall
    omega
  · intro hnot call hcall hle
    have hspread := c.two_mul_spread_le (List.dropLast_subset _ hcall)
    have hpause : 2 * (c.period - spread call) ≤ largest := by omega
    rw [c.le_largest_iff hlargest] at hpause
    rcases hpause with hzero | ⟨other, hother, hle'⟩
    · omega
    · exact hnot ⟨⟨call, hcall, by omega⟩, other, hother, by omega⟩

/-- The calls are the groups that half of the largest gap makes exactly when they are separable. -/
theorem grouped_iff_separable {largest : Nat}
    (hlargest : ∀ x, largest ≤ x ↔ c.visits.flatten.IsChain fun e e' => e' - e ≤ x) :
    Grouped (fun e e' => decide (e' - e ≤ largest / 2)) c.visits ↔ c.Separable := by
  have hlongest := c.largest_le_iff hlargest
  have hparts : Grouped (fun e e' => decide (e' - e ≤ largest / 2)) c.visits
      ↔ (∀ g ∈ c.visits, g.IsChain fun e e' => e' - e ≤ largest / 2)
        ∧ c.visits.IsChain
          fun g g' => ∀ x ∈ g.getLast?, ∀ y ∈ g'.head?, ¬ y - x ≤ largest / 2 := by
    constructor
    · intro h
      refine ⟨fun g hg => (h.chain g hg).imp fun _ _ => of_decide_eq_true, h.apart.imp ?_⟩
      exact fun g g' hapart x hx y hy => of_decide_eq_false (hapart x hx y hy)
    · rintro ⟨hchain, hapart⟩
      refine ⟨c.nil_notMem_visits, fun g hg => (hchain g hg).imp fun _ _ => decide_eq_true,
        hapart.imp ?_⟩
      exact fun g g' hapart x hx y hy => decide_eq_false (hapart x hx y hy)
  unfold visits at hparts ⊢
  rw [hparts, isChain_visitsFrom_iff fun b e e' => by rw [Nat.add_sub_add_left],
    isChain_pauses_iff (fun b e e' => by rw [Nat.add_sub_add_left]) c.start c.first,
    c.outer_iff hlongest]
  simp only [c.inner_iff hlongest]
  rfl

end PeriodicCalls

/--
**`callStarts` recovers calls at a fixed period exactly when they are separable.** That no call
takes more than half the period does not suffice.
-/
theorem callStarts_eq_firstVisits_iff (c : PeriodicCalls) {t : Trace}
    (h : t.entries = c.visits.flatten) : t.callStarts = c.firstVisits ↔ c.Separable := by
  have hsorted : t.entries.Pairwise (· ≤ ·) := by
    rw [h]
    exact c.pairwise_flatten
  have hlargest : ∀ x, t.largestGap.toNat ≤ x
      ↔ c.visits.flatten.IsChain fun e e' => e' - e ≤ x := by
    intro x
    rw [Trace.largestGap_le_iff hsorted, h]
  have htwo : 2 ≤ t.visits.length := by
    rw [← Trace.length_entries, h]
    exact c.two_le_length_flatten
  rw [Trace.callStarts_eq hsorted htwo, h, ← c.grouped_iff_separable hlargest]
  exact breaksFrom_eq_startsFrom_iff c.visits_ne_nil c.nil_notMem_visits 0

/-! ## A handler called every hundred cycles -/

/-- Two calls a hundred cycles apart, each with a second visit after `offset` cycles. -/
def handler (offset : Nat) (hpos : 0 < offset) (hhalf : 2 * offset ≤ 100) : PeriodicCalls where
  period := 100
  start := 0
  calls := [[0, offset], [0, offset]]
  pos := by decide
  two := le_rfl
  first := by simp
  increasing := by simpa using hpos
  half := by simpa using hhalf

/-- What such a handler leaves in a log. -/
def handlerLog (offset : UInt64) : Trace where
  visits := [0, offset, 100, 100 + offset].map fun entry => ⟨entry, entry + 5, 5, true⟩

/-- A handler that is back within ten cycles is told apart. -/
theorem callStarts_handler :
    (handlerLog 10).callStarts = (handler 10 (by decide) (by decide)).firstVisits :=
  (callStarts_eq_firstVisits_iff (handler 10 (by decide) (by decide)) (t := handlerLog 10) rfl).mpr
    (by decide)

/--
One that takes forty of the hundred cycles is not: the largest gap is then sixty, and half of it
is less than the forty inside a call.
-/
theorem not_callStarts_handler :
    ¬ ∀ (c : PeriodicCalls) (t : Trace), t.entries = c.visits.flatten →
      t.callStarts = c.firstVisits := by
  intro h
  have hlong := h (handler 40 (by decide) (by decide)) (handlerLog 40) rfl
  exact absurd hlong (by decide)

end Avrsim
