import Avrsim.Properties.RunSplit

/-!
# The budget of a run

`run` is bounded by cycles and by instructions. The second bound ends a run whose counter does not
go up. It never cuts short a run whose counter does: that has spent a cycle on every instruction.

* `Rises` — every instruction of a run takes a cycle or more
* `run_consumes` — what a run has consumed when it returns
-/

namespace Avrsim

open Infra.Loop Infra.Counter

variable {ι : Type}

/-- How many instructions `run` executes. -/
def runSteps (sim : Simavr ι) (cycles : UInt64) (m : Mcu ι) : Nat :=
  (forLoop cycles m.avr.wake).steps sim

/-- The cycle counter `j` instructions into a run. -/
def cycleAt (sim : Simavr ι) (m : Mcu ι) (j : Nat) : UInt64 := (coreAt sim m.avr.wake j).cycle

/-- Every instruction of the run takes a cycle or more: what the run has consumed goes up. -/
def Rises (sim : Simavr ι) (cycles : UInt64) (m : Mcu ι) : Prop :=
  ∀ j < runSteps sim cycles m,
    cycleAt sim m j - m.avr.cycle < cycleAt sim m (j + 1) - m.avr.cycle

/-- So it does when the counter reads more after every instruction than before. -/
theorem rises_of_lt {sim : Simavr ι} {cycles : UInt64} {m : Mcu ι}
    (h : ∀ j < runSteps sim cycles m, cycleAt sim m j < cycleAt sim m (j + 1)) :
    Rises sim cycles m := by
  intro j hj
  have hstart : m.avr.cycle.toNat + j ≤ (cycleAt sim m j).toNat :=
    add_le_of_rising (c := cycleAt sim m) fun i hi => h i (by omega)
  have hlt : (cycleAt sim m j).toNat < (cycleAt sim m (j + 1)).toNat := h j hj
  have hsub : ∀ cycle : UInt64, m.avr.cycle.toNat ≤ cycle.toNat →
      (cycle - m.avr.cycle).toNat = cycle.toNat - m.avr.cycle.toNat := fun cycle hle =>
    UInt64.toNat_sub_of_le _ _ (UInt64.le_iff_toNat_le.mpr hle)
  rw [UInt64.lt_iff_toNat_lt, hsub _ (by omega), hsub _ (by omega)]
  omega

/-- And when the core moves it at every instruction, by less than a full turn in all. -/
theorem rises_of_advances {sim : Simavr ι} (hadv : Advances sim) {cycles : UInt64} {m : Mcu ι}
    (hturn : cyclesTo sim m.avr.wake (runSteps sim cycles m) < 2 ^ 64) :
    Rises sim cycles m := by
  intro j hj
  have hlive : (coreAt sim m.avr.wake j).live = true := (before_forLoop sim cycles m.avr.wake hj).2
  have hconsumed : ∀ i ≤ runSteps sim cycles m,
      (cycleAt sim m i - m.avr.cycle).toNat = cyclesTo sim m.avr.wake i := fun i hi =>
    toNat_sub_start_of_lt (Nat.lt_of_le_of_lt (consumed_mono _ hi) hturn)
  have hne : (cycleAt sim m (j + 1) - m.avr.cycle).toNat
      ≠ (cycleAt sim m j - m.avr.cycle).toNat := by
    intro heq
    have hcycle := (UInt64.sub_left_inj _).mp (UInt64.toNat_inj.mp heq)
    exact coreAt_succ_cycle_ne hadv hlive hcycle
  have hstep : cyclesTo sim m.avr.wake j ≤ cyclesTo sim m.avr.wake (j + 1) :=
    consumed_mono _ (Nat.le_succ j)
  have hj' : j + 1 ≤ runSteps sim cycles m := hj
  rw [hconsumed _ hj', hconsumed _ (Nat.le_of_lt hj)] at hne
  rw [UInt64.lt_iff_toNat_lt, hconsumed _ hj', hconsumed _ (Nat.le_of_lt hj)]
  omega

/-- A run is so many passes of the body of its loop. -/
theorem run_snd_eq_iterate (sim : Simavr ι) (cycles : UInt64) (m : Mcu ι) :
    (m.run sim cycles).2
      = (Mcu.tick sim)^[runSteps sim cycles m] { m with avr := m.avr.wake } := by
  rw [Mcu.run_eq, Mcu.runLoop_eq_iterate]
  rfl

theorem run_snd_avr (sim : Simavr ι) (cycles : UInt64) (m : Mcu ι) :
    (m.run sim cycles).2.avr = coreAt sim m.avr.wake (runSteps sim cycles m) := by
  rw [run_snd_eq_iterate, Mcu.iterate_tick_avr]
  rfl

theorem run_fst (sim : Simavr ι) (cycles : UInt64) (m : Mcu ι) :
    (m.run sim cycles).1 = cycleAt sim m (runSteps sim cycles m) - m.avr.cycle := by
  rw [Mcu.run_eq, StepLoop.final_eq_coreAt]
  rfl

/-- A run of any cycles at all executes an instruction: it has just set the core running. -/
theorem runSteps_pos (sim : Simavr ι) {cycles : UInt64} (hpos : 0 < cycles) (m : Mcu ι) :
    0 < runSteps sim cycles m := by
  refine le_passes (Nat.succ_le_of_lt hpos) fun j hj => ?_
  obtain rfl : j = 0 := by omega
  refine forGo_iff.mpr ⟨?_, Core.wake_live m.avr⟩
  show m.avr.wake.cycle - m.avr.wake.cycle < cycles
  rw [UInt64.sub_self]
  exact hpos

/-- A run that rises has consumed a cycle for each of its instructions. -/
theorem runSteps_le_run_fst {sim : Simavr ι} {cycles : UInt64} {m : Mcu ι}
    (hrise : Rises sim cycles m) : runSteps sim cycles m ≤ (m.run sim cycles).1.toNat := by
  have hrising := add_le_of_rising (c := fun j => cycleAt sim m j - m.avr.cycle) hrise
  rw [run_fst]
  omega

/--
**A run consumes what was asked, give or take the last instruction**, if every instruction takes a
cycle or more and the core is not halted at the end. Whatever the counter does, there are no more
instructions than cycles asked for.
-/
theorem run_consumes (sim : Simavr ι) (cycles : UInt64) (m : Mcu ι) :
    (Rises sim cycles m →
        (m.run sim cycles).2.avr.live = false
          ∨ cycles ≤ (m.run sim cycles).1
            ∧ (0 < cycles → ∃ last, runSteps sim cycles m = last + 1
              ∧ (m.run sim cycles).1.toNat
                  < cycles.toNat + (cycleAt sim m (last + 1) - cycleAt sim m last).toNat))
      ∧ (m.run sim cycles).2
          = (Mcu.tick sim)^[runSteps sim cycles m] { m with avr := m.avr.wake }
      ∧ runSteps sim cycles m ≤ cycles.toNat := by
  have hsteps : runSteps sim cycles m ≤ cycles.toNat := steps_forLoop_le sim cycles m.avr.wake
  refine ⟨fun hrise => ?_, run_snd_eq_iterate sim cycles m, hsteps⟩
  cases hlive : (m.run sim cycles).2.avr.live with
  | false => exact Or.inl rfl
  | true =>
    refine Or.inr ⟨?_, fun hpos => ?_⟩
    · rcases Nat.lt_or_eq_of_le hsteps with hlt | heq
      · rw [run_snd_avr] at hlive
        rw [run_fst, UInt64.le_iff_toNat_le]
        exact after_forLoop sim cycles m.avr.wake hlt hlive
      · -- out of instructions, and every one of them took a cycle
        rw [UInt64.le_iff_toNat_le, ← heq]
        exact runSteps_le_run_fst hrise
    · obtain ⟨last, hlast⟩ := Nat.exists_eq_succ_of_ne_zero
        (Nat.pos_iff_ne_zero.mp (runSteps_pos sim hpos m))
      refine ⟨last, hlast, ?_⟩
      have hopen : (cycleAt sim m last - m.avr.cycle).toNat < cycles.toNat :=
        (before_forLoop sim cycles m.avr.wake (j := last) (by
          show last < runSteps sim cycles m
          omega)).1
      have hadd := toNat_sub_add m.avr.cycle (cycleAt sim m last) (cycleAt sim m (last + 1))
      rw [run_fst, hlast, hadd]
      have hmod := Nat.mod_le ((cycleAt sim m last - m.avr.cycle).toNat
        + (cycleAt sim m (last + 1) - cycleAt sim m last).toNat) (2 ^ 64)
      omega

/-- Four cycles asked of functions that take turns: the last instruction is a jump of two. -/
theorem run_consumes_turns :
    (Isa.turns.run Isa.simavr 4).1 = 5 ∧ (4 : UInt64) ≤ (Isa.turns.run Isa.simavr 4).1
      ∧ ∃ last, runSteps Isa.simavr 4 Isa.turns = last + 1
        ∧ (Isa.turns.run Isa.simavr 4).1.toNat
            < 4 + (cycleAt Isa.simavr Isa.turns (last + 1)
              - cycleAt Isa.simavr Isa.turns last).toNat := by
  have hrise : Rises Isa.simavr 4 Isa.turns :=
    rises_of_advances (fun _ => Isa.cycle_ne_next) (by decide +kernel)
  refine ⟨by decide +kernel, ?_⟩
  rcases (run_consumes Isa.simavr 4 Isa.turns).1 hrise with hhalted | ⟨hle, hlast⟩
  · exact absurd hhalted (by decide +kernel)
  · exact ⟨hle, hlast (by decide)⟩

end Avrsim
