import Avrsim.Infra.Budget
import Avrsim.Isa
import Avrsim.Properties.Stepping

/-!
# Splitting a run

`run` begins by setting the cpu state to running and then loops. The loop can be cut anywhere, as
any loop with a budget can: running for `x + b` cycles is the loop of `run a`, which took `x`, and
then the loop of `run b`. The state that `run b` writes in between is the only difference, so the
cut shows exactly when the first run does not leave the core running.

* `steps_forLoop_add` — the number of instructions of the long loop
* `run_split` — the law, with and without the state write
-/

namespace Avrsim

open Infra.Loop Infra.Budget

variable {ι : Type}

/-- The loop of `run` from the machine as it is, without the state write. -/
def Mcu.resume (sim : Simavr ι) (cycles : UInt64) (m : Mcu ι) : Mcu ι :=
  m.runLoop sim (forLoop cycles m.avr)

/-- Every `run` wakes the core and then resumes. -/
theorem run_eq_resume (sim : Simavr ι) (cycles : UInt64) (m : Mcu ι) :
    (m.run sim cycles).2 = ({ m with avr := m.avr.wake } : Mcu ι).resume sim cycles :=
  congrArg Prod.snd (Mcu.run_eq sim cycles m)

/-- A core that has halted stays as it is. -/
theorem resume_of_halted (sim : Simavr ι) (cycles : UInt64) {m : Mcu ι}
    (h : m.avr.live = false) : m.resume sim cycles = m := by
  have hsteps : (forLoop cycles m.avr).steps sim = 0 := by
    refine passes_eq_of (Nat.zero_le _) (fun j hj => absurd hj (Nat.not_lt_zero j)) fun _ => ?_
    show forGo cycles m.avr.cycle m.avr = false
    simp [forGo, h]
  unfold Mcu.resume
  rw [Mcu.runLoop_eq_iterate, hsteps]
  rfl

/-! ## The loop of `run` -/

section ForLoop

variable (sim : Simavr ι) (cycles : UInt64) (c : Core ι)

/-- The loop goes on within its budget while the core is live. -/
theorem steps_forLoop :
    (forLoop cycles c).steps sim = passesWithin Core.cycle Core.live sim.next cycles c := rfl

theorem steps_forLoop_le : (forLoop cycles c).steps sim ≤ cycles.toNat := by
  rw [steps_forLoop]
  exact passesWithin_le cycles c

/-- Before every instruction the cycle bound is open and the core is live. -/
theorem before_forLoop {j : Nat} (hj : j < (forLoop cycles c).steps sim) :
    (coreAt sim c j).cycle - c.cycle < cycles ∧ (coreAt sim c j).live = true := by
  rw [steps_forLoop] at hj
  exact before_pass hj

/-- The loop stops at its bound on the instructions, at its cycle bound, or on a halted core. -/
theorem after_forLoop (h : (forLoop cycles c).steps sim < cycles.toNat)
    (hlive : (coreAt sim c ((forLoop cycles c).steps sim)).live = true) :
    cycles ≤ (coreAt sim c ((forLoop cycles c).steps sim)).cycle - c.cycle := by
  rw [steps_forLoop] at h hlive ⊢
  exact after_passes h hlive

end ForLoop

/-- A live core moves its counter. -/
theorem moves_live {sim : Simavr ι} (hadv : Advances sim) :
    Moves Core.cycle Core.live sim.next := fun c hc => hadv c hc

/--
When neither loop wraps the counter, the loop of `x + b` makes the instructions of the loop of
`a`, where `x` is what those took, and then those of the loop of `b`.
-/
theorem steps_forLoop_add {sim : Simavr ι} (hadv : Advances sim) {c : Core ι} {a b x : UInt64}
    (hx : x = (coreAt sim c ((forLoop a c).steps sim)).cycle - c.cycle)
    (ha : cyclesTo sim c ((forLoop a c).steps sim) < 2 ^ 64)
    (hsum : x.toNat + b.toNat < 2 ^ 64)
    (hab : cyclesTo sim c ((forLoop (x + b) c).steps sim) < 2 ^ 64) :
    (forLoop (x + b) c).steps sim
      = (forLoop a c).steps sim
        + (forLoop b (coreAt sim c ((forLoop a c).steps sim))).steps sim := by
  simp only [steps_forLoop] at hx ha hab ⊢
  exact passesWithin_add (moves_live hadv) rfl hx ha hsum hab

/--
**Splitting a run changes nothing but the cpu state.** Let `run a` return `x`, let `x + b` fit
in a word and let neither `run a` nor `run (x + b)` wrap the cycle counter. Then `run (x + b)`
is `run a` followed by the loop of `run b`, for the core and for everything that is recorded.
So `run a` and then `run b` leave exactly what `run (x + b)` does when the first leaves the core
running; and when it leaves the core halted, `run (x + b)` ends there.
-/
theorem run_split {sim : Simavr ι} (hadv : Advances sim) {m : Mcu ι} {a b : UInt64}
    (hsum : (m.run sim a).1.toNat + b.toNat < 2 ^ 64)
    (ha : cyclesTo sim m.avr.wake ((forLoop a m.avr.wake).steps sim) < 2 ^ 64)
    (hab : cyclesTo sim m.avr.wake
      ((forLoop ((m.run sim a).1 + b) m.avr.wake).steps sim) < 2 ^ 64) :
    (m.run sim ((m.run sim a).1 + b)).2 = (m.run sim a).2.resume sim b
      ∧ ((m.run sim a).2.avr.state = .running →
          ((m.run sim a).2.run sim b).2 = (m.run sim ((m.run sim a).1 + b)).2)
      ∧ ((m.run sim a).2.avr.live = false →
          (m.run sim ((m.run sim a).1 + b)).2 = (m.run sim a).2) := by
  have hx : (m.run sim a).1
      = (coreAt sim m.avr.wake ((forLoop a m.avr.wake).steps sim)).cycle - m.avr.wake.cycle := by
    rw [Mcu.run_eq, StepLoop.final_eq_coreAt]
    rfl
  have hfirst : (m.run sim a).2 = (Mcu.tick sim)^[(forLoop a m.avr.wake).steps sim]
      { m with avr := m.avr.wake } := by
    rw [Mcu.run_eq, Mcu.runLoop_eq_iterate]
    rfl
  have havr : (m.run sim a).2.avr
      = coreAt sim m.avr.wake ((forLoop a m.avr.wake).steps sim) := by
    rw [hfirst, Mcu.iterate_tick_avr]
    rfl
  have hresume : (m.run sim ((m.run sim a).1 + b)).2 = (m.run sim a).2.resume sim b := by
    unfold Mcu.resume
    rw [Mcu.run_eq sim ((m.run sim a).1 + b), Mcu.runLoop_eq_iterate, Mcu.runLoop_eq_iterate,
      steps_forLoop_add hadv hx ha hsum hab, Nat.add_comm, Function.iterate_add_apply, havr]
    show _ = (Mcu.tick sim)^[_] { (m.run sim a).2 with avr := _ }
    rw [← havr]
    show (Mcu.tick sim)^[_] _ = (Mcu.tick sim)^[_] (m.run sim a).2
    rw [hfirst]
    rfl
  refine ⟨hresume, ?_, ?_⟩
  · intro hrunning
    rw [hresume, run_eq_resume, Core.wake_eq_self hrunning]
  · intro hhalted
    rw [hresume, resume_of_halted sim b hhalted]

/-- A cut in the middle of busy code. -/
theorem run_split_busy :
    ((Isa.turns.run Isa.simavr 3).2.run Isa.simavr 4).2
      = (Isa.turns.run Isa.simavr ((Isa.turns.run Isa.simavr 3).1 + 4)).2 :=
  (run_split (fun _ => Isa.cycle_ne_next) (by decide +kernel) (by decide +kernel)
    (by decide +kernel)).2.1 (by decide +kernel)

/--
A cut after a `sleep`: the second run wakes the core, which goes on to the next instruction,
while in a single run it stays asleep.
-/
theorem run_split_asleep :
    Advances Isa.simavr
      ∧ (((Isa.boot [0x9588, 0x0000, 0x0000] []).run Isa.simavr 1).2.run Isa.simavr 1).2
          ≠ ((Isa.boot [0x9588, 0x0000, 0x0000] []).run Isa.simavr
              (((Isa.boot [0x9588, 0x0000, 0x0000] []).run Isa.simavr 1).1 + 1)).2 := by
  refine ⟨fun _ => Isa.cycle_ne_next, fun heq => ?_⟩
  have hpc := congrArg (fun m : Mcu Unit => m.avr.pc) heq
  revert hpc
  decide +kernel

end Avrsim
