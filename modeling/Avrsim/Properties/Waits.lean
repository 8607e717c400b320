import Avrsim.Properties.Budgets
import Avrsim.Properties.RunSplit

/-!
# Waits are runs

`call` and `runUntil` look for an arrival while the program runs, and looking changes nothing. What
they leave is what `run` leaves, with a budget of the cycles the arrival took, or with the whole
budget where nothing arrived.

* `Call.spent` — that budget
* `run_of_wait` — a loop of `call` or `runUntil` as one of `run`
* `waits_are_runs` — both functions in terms of `run`
-/

namespace Avrsim

open Infra.Loop Infra.Budget

variable {ι : Type}

/-- What a call that has returned took, and the whole budget of one that has not. -/
def Call.spent (budget : UInt64) (result : Call) : UInt64 :=
  if result.returned then result.cycles else budget

theorem live_of_onItsWay {stop : UInt32} (c : Core ι) (h : onItsWay stop c = true) :
    c.live = true := by
  simp only [onItsWay, Bool.and_eq_true] at h
  exact h.2

/-- The loop of `run` makes the instructions of the loop that looks for an arrival. -/
theorem steps_forLoop_spent {sim : Simavr ι} (hadv : Advances sim) {stop : UInt32}
    {budget : UInt64} {c : Core ι}
    (hturn : ((untilLoop stop budget c).report sim stop budget).returned = true →
      cyclesTo sim c ((untilLoop stop budget c).steps sim) < 2 ^ 64) :
    (forLoop (((untilLoop stop budget c).report sim stop budget).spent budget) c).steps sim
      = (untilLoop stop budget c).steps sim := by
  have hsteps := steps_untilLoop sim stop budget c
  rw [steps_forLoop]
  unfold Call.spent
  cases hret : ((untilLoop stop budget c).report sim stop budget).returned with
  | true =>
    rw [if_pos rfl, cycles_untilLoop]
    refine passesWithin_of_spent (moves_live hadv) ?_ (hturn hret)
    intro j hj
    exact (before_untilLoop sim stop budget c hj).2.2
  | false =>
    rw [if_neg (by simp), hsteps]
    refine passesWithin_weaken live_of_onItsWay fun hopen => ?_
    -- with both bounds open the loop has ended at a halted core: an arrival is reported
    rw [← hsteps] at hopen ⊢
    have hpc : (coreAt sim c ((untilLoop stop budget c).steps sim)).pc ≠ stop := by
      intro hpc
      have hret' := (returned_iff_openAfter sim stop budget c).mpr ⟨hopen, hpc⟩
      rw [hret] at hret'
      cases hret'
    have hgo : untilGo stop budget c.cycle (coreAt sim c ((untilLoop stop budget c).steps sim))
        = false := not_go_of_passes_lt _ _ _ _ hopen.1
    by_contra hlive
    have htrue : untilGo stop budget c.cycle
        (coreAt sim c ((untilLoop stop budget c).steps sim)) = true :=
      untilGo_iff.mpr ⟨hopen.2, hpc, Bool.eq_true_of_not_eq_false hlive⟩
    rw [hgo] at htrue
    cases htrue

/-- What the loop leaves of a machine whose core is ready to go, `run` leaves too. -/
theorem run_of_wait {sim : Simavr ι} (hadv : Advances sim) {stop : UInt32} {budget : UInt64}
    {c : Core ι} (hwake : c.wake = c) (m : Mcu ι)
    (hturn : ((untilLoop stop budget c).report sim stop budget).returned = true →
      cyclesTo sim c ((untilLoop stop budget c).steps sim) < 2 ^ 64) :
    ({ m with avr := c } : Mcu ι).run sim
        (((untilLoop stop budget c).report sim stop budget).spent budget)
      = (((untilLoop stop budget c).report sim stop budget).cycles,
          m.runLoop sim (untilLoop stop budget c)) := by
  have hsteps := steps_forLoop_spent hadv hturn
  rw [Mcu.run_eq]
  show (((forLoop _ c.wake).final sim).cycle - c.cycle, _) = _
  rw [hwake, StepLoop.final_eq_coreAt, Mcu.runLoop_eq_iterate, Mcu.runLoop_eq_iterate, hsteps,
    cycles_untilLoop]
  rfl

/--
**Waits are runs.** `runUntil` returns the cycles and leaves the machine that `run` does with
`Call.spent` cycles, and `call` those that `run` does from the machine that is set up for the call,
unless an arrival has taken the cycle counter all the way round.
-/
theorem waits_are_runs {sim : Simavr ι} (hadv : Advances sim) {m : Mcu ι} {symbol : String}
    (hdef : m.address symbol ≠ noAddress) {budget : UInt64}
    (hcall : (m.call sim symbol budget).1.returned = true →
      cyclesTo sim (m.prog.enterCall (m.address symbol) m.avr)
        ((untilLoop m.prog.trap budget (m.prog.enterCall (m.address symbol) m.avr)).steps sim)
          < 2 ^ 64)
    (huntil : (m.runUntil sim symbol budget).1.returned = true →
      cyclesTo sim m.avr.wake ((untilLoop (m.address symbol) budget m.avr.wake).steps sim)
        < 2 ^ 64) :
    ({ m with avr := m.prog.enterCall (m.address symbol) m.avr } : Mcu ι).run sim
        ((m.call sim symbol budget).1.spent budget)
      = ((m.call sim symbol budget).1.cycles, (m.call sim symbol budget).2)
    ∧ m.run sim ((m.runUntil sim symbol budget).1.spent budget)
      = ((m.runUntil sim symbol budget).1.cycles, (m.runUntil sim symbol budget).2) := by
  rw [Mcu.call_eq sim budget hdef] at hcall ⊢
  rw [Mcu.runUntil_eq sim budget hdef] at huntil ⊢
  constructor
  · exact run_of_wait hadv rfl m hcall
  · exact run_of_wait hadv (Core.wake_eq_self rfl) m huntil

/-- `f` is reached after two cycles, and a call of it that never returns takes its whole budget. -/
theorem waits_are_runs_turns :
    (Isa.turns.runUntil Isa.simavr "f" 9).1 = ⟨true, 2⟩
      ∧ (Isa.turns.call Isa.simavr "f" 9).1.returned = false
      ∧ ({ Isa.turns with avr := Isa.turns.prog.enterCall (Isa.turns.address "f") Isa.turns.avr } :
          Mcu Unit).run Isa.simavr ((Isa.turns.call Isa.simavr "f" 9).1.spent 9)
        = ((Isa.turns.call Isa.simavr "f" 9).1.cycles, (Isa.turns.call Isa.simavr "f" 9).2)
      ∧ Isa.turns.run Isa.simavr ((Isa.turns.runUntil Isa.simavr "f" 9).1.spent 9)
        = ((Isa.turns.runUntil Isa.simavr "f" 9).1.cycles,
            (Isa.turns.runUntil Isa.simavr "f" 9).2) :=
  ⟨by decide +kernel, by decide +kernel,
    waits_are_runs (fun _ => Isa.cycle_ne_next) (by decide +kernel) (by decide +kernel)
      (by decide +kernel)⟩

end Avrsim
