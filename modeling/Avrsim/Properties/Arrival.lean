import Avrsim.Isa
import Avrsim.Properties.Stepping

/-!
# Arrivals

What `call` and `runUntil` report about the address they stop at.

* `call_runUntil_arrival` — a reported arrival is real, first and exactly costed, and no loop
  runs longer than its budget
* `call_runUntil_no_arrival_missed_iff` — an arrival is missed exactly when it falls on the last
  cycle of the budget
-/

namespace Avrsim

open Infra.Loop Infra.Counter

variable {ι : Type} (sim : Simavr ι)

/-- The core gets to `stop` in `k` instructions without halting on the way. -/
def Reaches (stop : UInt32) (c : Core ι) (k : Nat) : Prop :=
  (∀ j < k, (coreAt sim c j).live = true) ∧ (coreAt sim c k).pc = stop

/-- `k` is the first time the core is at `stop`. -/
def FirstReaches (stop : UInt32) (c : Core ι) (k : Nat) : Prop :=
  Reaches sim stop c k ∧ ∀ j < k, (coreAt sim c j).pc ≠ stop

variable {sim}

theorem FirstReaches.unique {stop : UInt32} {c : Core ι} {k k' : Nat}
    (h : FirstReaches sim stop c k) (h' : FirstReaches sim stop c k') : k = k' := by
  rcases Nat.lt_trichotomy k k' with hlt | heq | hgt
  · exact absurd h.1.2 (h'.2 k hlt)
  · exact heq
  · exact absurd h'.1.2 (h.2 k' hgt)

/-- The first arrival is no later, and no dearer, than any other. -/
theorem Reaches.exists_first {stop : UInt32} {c : Core ι} {k : Nat} (h : Reaches sim stop c k) :
    ∃ k' ≤ k, FirstReaches sim stop c k' := by
  induction k using Nat.strongRecOn with
  | _ k ih =>
    by_cases hearlier : ∃ j < k, (coreAt sim c j).pc = stop
    · obtain ⟨j, hj, hpc⟩ := hearlier
      obtain ⟨k', hk', hfirst⟩ := ih j hj ⟨fun i hi => h.1 i (by omega), hpc⟩
      exact ⟨k', by omega, hfirst⟩
    · exact ⟨k, Nat.le_refl k, h, fun j hj hpc => hearlier ⟨j, hj, hpc⟩⟩

/-! ## The loop of `call` and `runUntil` -/

section UntilLoop

variable (sim) (stop : UInt32) (cycleBudget : UInt64) (c : Core ι)

theorem steps_untilLoop_le :
    (untilLoop stop cycleBudget c).steps sim ≤ cycleBudget.toNat :=
  passes_le _ _ _ _

/-- Before every instruction of the loop both bounds are open and the core is live. -/
theorem before_untilLoop {j : Nat} (hj : j < (untilLoop stop cycleBudget c).steps sim) :
    (coreAt sim c j).cycle - c.cycle < cycleBudget ∧ (coreAt sim c j).pc ≠ stop
      ∧ (coreAt sim c j).live = true :=
  untilGo_iff.mp (go_of_lt_passes _ _ _ _ hj)

/-- The loop reports an arrival when it stops at `stop` with both bounds still open. -/
theorem returned_untilLoop_iff :
    ((untilLoop stop cycleBudget c).report sim stop cycleBudget).returned = true
      ↔ ((untilLoop stop cycleBudget c).steps sim < cycleBudget.toNat
          ∧ (coreAt sim c ((untilLoop stop cycleBudget c).steps sim)).cycle - c.cycle
              < cycleBudget)
        ∧ (coreAt sim c ((untilLoop stop cycleBudget c).steps sim)).pc = stop := by
  simp only [StepLoop.report, Bool.and_eq_true, decide_eq_true_eq, StepLoop.final_eq_coreAt]
  rfl

/-- The cycles reported are those between the two ends of the loop. -/
theorem cycles_untilLoop :
    ((untilLoop stop cycleBudget c).report sim stop cycleBudget).cycles
      = (coreAt sim c ((untilLoop stop cycleBudget c).steps sim)).cycle - c.cycle := by
  simp only [StepLoop.report, StepLoop.final_eq_coreAt]
  rfl

variable {sim stop cycleBudget c}

/-- A reported arrival is the first one. -/
theorem firstReaches_of_returned
    (h : ((untilLoop stop cycleBudget c).report sim stop cycleBudget).returned = true) :
    FirstReaches sim stop c ((untilLoop stop cycleBudget c).steps sim) :=
  ⟨⟨fun _ hj => (before_untilLoop sim stop cycleBudget c hj).2.2,
    ((returned_untilLoop_iff sim stop cycleBudget c).mp h).2⟩,
    fun _ hj => (before_untilLoop sim stop cycleBudget c hj).2.1⟩

/-- A first arrival with both bounds still open is where the loop stops. -/
theorem steps_untilLoop_eq {k : Nat} (hfirst : FirstReaches sim stop c k)
    (hk : k ≤ cycleBudget.toNat)
    (hopen : ∀ j < k, (coreAt sim c j).cycle - c.cycle < cycleBudget) :
    (untilLoop stop cycleBudget c).steps sim = k := by
  refine passes_eq_of hk (fun j hj => ?_) (fun _ => ?_)
  · exact untilGo_iff.mpr ⟨hopen j hj, hfirst.2 j hj, hfirst.1.1 j hj⟩
  · have hstop : stop = (coreAt sim c k).pc := hfirst.1.2.symm
    have hfalse : untilGo stop cycleBudget c.cycle (coreAt sim c k) = false := by
      simp [untilGo, hstop]
    exact hfalse

end UntilLoop

/-! ## Reported arrivals -/

variable (sim)

/--
What a report says about the run behind it, for a loop that starts at the core `c` and stops at
`stop`: the number `k` of instructions is within the budget and each was sampled once; a
reported arrival is the first one, within both bounds and with its exact cost; and without one
no state tested before the last instruction was at `stop`.
-/
def ArrivalReport (stop : UInt32) (cycleBudget : UInt64) (c : Core ι) (m : Mcu ι)
    (result : Call × Mcu ι) : Prop :=
  ∃ k ≤ cycleBudget.toNat,
    result.2 = (Mcu.tick sim)^[k] { m with avr := c }
      ∧ (result.1.returned = true →
          k < cycleBudget.toNat ∧ (coreAt sim c k).pc = stop
            ∧ (∀ j < k, (coreAt sim c j).pc ≠ stop) ∧ (∀ j < k, (coreAt sim c j).live = true)
            ∧ result.1.cycles = (coreAt sim c k).cycle - c.cycle
            ∧ result.1.cycles < cycleBudget)
      ∧ (result.1.returned = false → ∀ j < k, (coreAt sim c j).pc ≠ stop)

theorem arrivalReport_untilLoop (stop : UInt32) (cycleBudget : UInt64) (c : Core ι) (m : Mcu ι) :
    ArrivalReport sim stop cycleBudget c m
      ((untilLoop stop cycleBudget c).report sim stop cycleBudget,
        m.runLoop sim (untilLoop stop cycleBudget c)) := by
  refine ⟨(untilLoop stop cycleBudget c).steps sim, steps_untilLoop_le sim stop cycleBudget c,
    Mcu.runLoop_eq_iterate sim _ m, ?_, ?_⟩
  · intro hret
    obtain ⟨⟨hlt, hcyc⟩, hpc⟩ := (returned_untilLoop_iff sim stop cycleBudget c).mp hret
    have hfirst := firstReaches_of_returned hret
    refine ⟨hlt, hpc, hfirst.2, hfirst.1.1, cycles_untilLoop sim stop cycleBudget c, ?_⟩
    rw [cycles_untilLoop]
    exact hcyc
  · intro _ j hj
    exact (before_untilLoop sim stop cycleBudget c hj).2.1

/--
**A reported arrival is real, first and exactly costed, and the loops always end**, for any core
step function. A symbol that is not defined is reported at once, with nothing executed.
-/
theorem call_runUntil_arrival (m : Mcu ι) (symbol : String) (cycleBudget : UInt64) :
    (m.address symbol = noAddress →
      m.call sim symbol cycleBudget = (⟨false, 0⟩, m)
        ∧ m.runUntil sim symbol cycleBudget = (⟨false, 0⟩, m))
    ∧ (m.address symbol ≠ noAddress →
      ArrivalReport sim m.prog.trap cycleBudget (m.prog.enterCall (m.address symbol) m.avr) m
          (m.call sim symbol cycleBudget)
        ∧ ArrivalReport sim (m.address symbol) cycleBudget m.avr.wake m
          (m.runUntil sim symbol cycleBudget)) := by
  constructor
  · intro h
    exact ⟨Mcu.call_of_undefined sim cycleBudget h, Mcu.runUntil_of_undefined sim cycleBudget h⟩
  · intro h
    rw [Mcu.call_eq sim cycleBudget h, Mcu.runUntil_eq sim cycleBudget h]
    exact ⟨arrivalReport_untilLoop sim _ cycleBudget _ m,
      arrivalReport_untilLoop sim _ cycleBudget _ m⟩

/-! ## Missed arrivals -/

/--
If the core gets to `stop` within the budget, the report is of the first arrival and its cost.
-/
def NoArrivalMissed (stop : UInt32) (cycleBudget : UInt64) (c : Core ι) (result : Call) : Prop :=
  (∃ k, Reaches sim stop c k ∧ cyclesTo sim c k ≤ cycleBudget.toNat) →
    ∃ k, FirstReaches sim stop c k ∧ result.returned = true
      ∧ result.cycles.toNat = cyclesTo sim c k

variable {sim}

/-- An arrival that leaves part of the budget unspent is reported, with its cost. -/
theorem report_of_lt (hadv : Advances sim) {stop : UInt32} {cycleBudget : UInt64} {c : Core ι}
    {k : Nat} (hfirst : FirstReaches sim stop c k)
    (hlt : cyclesTo sim c k < cycleBudget.toNat) :
    ((untilLoop stop cycleBudget c).report sim stop cycleBudget).returned = true
      ∧ ((untilLoop stop cycleBudget c).report sim stop cycleBudget).cycles.toNat
          = cyclesTo sim c k := by
  have hk : k ≤ cyclesTo sim c k := le_cyclesTo hadv hfirst.1.1
  have hword := cycleBudget.toNat_lt
  have hspent : ∀ j ≤ k, (coreAt sim c j).cycle - c.cycle < cycleBudget := by
    intro j hj
    have hj' : cyclesTo sim c j ≤ cyclesTo sim c k := consumed_mono _ hj
    rw [UInt64.lt_iff_toNat_lt, elapsed_eq_cyclesTo (by omega)]
    omega
  have hsteps : (untilLoop stop cycleBudget c).steps sim = k :=
    steps_untilLoop_eq hfirst (by omega) fun j hj => hspent j (Nat.le_of_lt hj)
  constructor
  · rw [returned_untilLoop_iff, hsteps]
    exact ⟨⟨by omega, hspent k (Nat.le_refl k)⟩, hfirst.1.2⟩
  · rw [cycles_untilLoop, hsteps]
    exact elapsed_eq_cyclesTo (by omega)

theorem noArrivalMissed_untilLoop_iff (hadv : Advances sim) (stop : UInt32)
    (cycleBudget : UInt64) (c : Core ι) :
    NoArrivalMissed sim stop cycleBudget c
        ((untilLoop stop cycleBudget c).report sim stop cycleBudget)
      ↔ ∀ k, FirstReaches sim stop c k → cyclesTo sim c k ≠ cycleBudget.toNat := by
  constructor
  · intro h k hfirst heq
    obtain ⟨k', hfirst', hret, -⟩ := h ⟨k, hfirst.1, by omega⟩
    -- the report would be of this very arrival, with the budget still open
    obtain ⟨⟨-, hopen⟩, -⟩ := (returned_untilLoop_iff sim stop cycleBudget c).mp hret
    have hword := cycleBudget.toNat_lt
    rw [(firstReaches_of_returned hret).unique hfirst, UInt64.lt_iff_toNat_lt,
      elapsed_eq_cyclesTo (by omega)] at hopen
    omega
  · rintro h ⟨k, hreach, hle⟩
    obtain ⟨k', hk', hfirst⟩ := hreach.exists_first
    have hle' : cyclesTo sim c k' ≤ cyclesTo sim c k := consumed_mono _ hk'
    have hne := h k' hfirst
    exact ⟨k', hfirst, report_of_lt hadv hfirst (by omega)⟩

/--
**An arrival is missed exactly when it falls on the last cycle of the budget.** `call` and
`runUntil` meet their promise, that nothing that arrives within the budget is missed, if and
only if the first arrival does not consume exactly `cycleBudget` cycles.
-/
theorem call_runUntil_no_arrival_missed_iff (hadv : Advances sim) {m : Mcu ι} {symbol : String}
    (hdef : m.address symbol ≠ noAddress) (cycleBudget : UInt64) :
    (NoArrivalMissed sim m.prog.trap cycleBudget (m.prog.enterCall (m.address symbol) m.avr)
        (m.call sim symbol cycleBudget).1
      ↔ ∀ k, FirstReaches sim m.prog.trap (m.prog.enterCall (m.address symbol) m.avr) k →
          cyclesTo sim (m.prog.enterCall (m.address symbol) m.avr) k ≠ cycleBudget.toNat)
    ∧ (NoArrivalMissed sim (m.address symbol) cycleBudget m.avr.wake
        (m.runUntil sim symbol cycleBudget).1
      ↔ ∀ k, FirstReaches sim (m.address symbol) m.avr.wake k →
          cyclesTo sim m.avr.wake k ≠ cycleBudget.toNat) := by
  rw [Mcu.call_eq sim cycleBudget hdef, Mcu.runUntil_eq sim cycleBudget hdef]
  exact ⟨noArrivalMissed_untilLoop_iff hadv _ cycleBudget _,
    noArrivalMissed_untilLoop_iff hadv _ cycleBudget _⟩

/-- The core of the runs below: a function that is a single `ret`, ready to be called. -/
def retCore : Core Unit :=
  (Isa.boot [0x9508] [⟨"f", 0⟩]).prog.enterCall 0 (Isa.boot [0x9508] [⟨"f", 0⟩]).avr

/-- It gets to the trap in one instruction. -/
theorem firstReaches_retCore : FirstReaches Isa.simavr 2 retCore 1 := by
  refine ⟨⟨fun j hj => ?_, by decide +kernel⟩, fun j hj => ?_⟩
  · rw [Nat.lt_one_iff.mp hj]
    rfl
  · rw [Nat.lt_one_iff.mp hj]
    decide +kernel

/-- With five cycles the `ret` is seen by `call`, and `f` itself by `runUntil`. -/
theorem call_runUntil_no_arrival_missed_iff_ret :
    NoArrivalMissed Isa.simavr 2 5 retCore
        ((Isa.boot [0x9508] [⟨"f", 0⟩]).call Isa.simavr "f" 5).1
      ∧ ∀ k, FirstReaches Isa.simavr 2 retCore k → cyclesTo Isa.simavr retCore k ≠ 5 := by
  have hcost : ∀ k, FirstReaches Isa.simavr 2 retCore k → cyclesTo Isa.simavr retCore k ≠ 5 := by
    intro k hk
    rw [hk.unique firstReaches_retCore]
    decide +kernel
  have hdef : (Isa.boot [0x9508] [⟨"f", 0⟩]).address "f" ≠ noAddress := by decide +kernel
  exact ⟨(call_runUntil_no_arrival_missed_iff (fun _ => Isa.cycle_ne_next) hdef 5).1.mpr hcost,
    hcost⟩

/-- With four, which is what the `ret` takes, it is not. -/
theorem not_noArrivalMissed_ret :
    Advances Isa.simavr
      ∧ ((Isa.boot [0x9508] [⟨"f", 0⟩]).call Isa.simavr "f" 4).1 = ⟨false, 4⟩
      ∧ ¬ NoArrivalMissed Isa.simavr 2 4 retCore
          ((Isa.boot [0x9508] [⟨"f", 0⟩]).call Isa.simavr "f" 4).1 := by
  have hcall : ((Isa.boot [0x9508] [⟨"f", 0⟩]).call Isa.simavr "f" 4).1 = ⟨false, 4⟩ := by
    decide +kernel
  refine ⟨fun _ => Isa.cycle_ne_next, hcall, fun h => ?_⟩
  obtain ⟨k, -, hret, -⟩ := h ⟨1, firstReaches_retCore.1, by decide +kernel⟩
  rw [hcall] at hret
  cases hret

end Avrsim
