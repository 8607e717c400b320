import Avrsim.Infra.Counter
import Avrsim.Infra.Loop
import Avrsim.Run

/-!
# The stepping loops

The three loops of the source are bounded while loops over `tick`, and what they do to the core
does not depend on what is being measured.

* `tick_avr` and its companions — what one pass does to each field
* `stepUntil_eq` and `stepFor_eq` — the loops as `Infra.Loop.stepWhile`
* `StepLoop` — the loop an operation runs, read off the program and the core alone
* `exec_snd_of_stepLoop` — an operation that steps is its loop
-/

namespace Avrsim

open Infra.Loop Infra.Counter

variable {ι : Type}

namespace Mcu

/-! ## One pass -/

@[simp] theorem absorb_avr (m : Mcu ι) (r : Core ι × List Notice) : (m.absorb r).avr = r.1 := rfl

@[simp] theorem tick_avr (sim : Simavr ι) (m : Mcu ι) : (m.tick sim).avr = sim.next m.avr := rfl

@[simp] theorem tick_prog (sim : Simavr ι) (m : Mcu ι) : (m.tick sim).prog = m.prog := rfl

theorem tick_traced (sim : Simavr ι) (m : Mcu ι) (symbol : String) :
    (m.tick sim).traced[symbol]?
      = m.traced[symbol]?.map (Traced.sample (sim.next m.avr).pc (sim.next m.avr).cycle) :=
  Std.TreeMap.getElem?_map

theorem tick_lowestStack (sim : Simavr ι) (m : Mcu ι) :
    (m.tick sim).lowestStack
      = if (sim.next m.avr).sp < m.lowestStack then (sim.next m.avr).sp else m.lowestStack := rfl

theorem iterate_tick_avr (sim : Simavr ι) (k : Nat) (m : Mcu ι) :
    ((tick sim)^[k] m).avr = (sim.next)^[k] m.avr :=
  map_iterate (tick_avr sim) k m

theorem iterate_tick_prog (sim : Simavr ι) (k : Nat) (m : Mcu ι) :
    ((tick sim)^[k] m).prog = m.prog := by
  induction k generalizing m with
  | zero => rfl
  | succ k ih => rw [Function.iterate_succ_apply, ih, tick_prog]

end Mcu

/-! ## The core on its own -/

section Core

variable (sim : Simavr ι)

/-- The core `k` instructions after `c`. -/
def coreAt (c : Core ι) (k : Nat) : Core ι := (sim.next)^[k] c

/-- The cycles the first `k` instructions take. -/
def cyclesTo (c : Core ι) (k : Nat) : Nat := consumed (fun j => (coreAt sim c j).cycle) k

/-- The counter moves at every instruction of a live core. -/
def Advances : Prop := ∀ c : Core ι, c.live = true → (sim.next c).cycle ≠ c.cycle

variable {sim}

theorem coreAt_add (c : Core ι) (k j : Nat) :
    coreAt sim c (k + j) = coreAt sim (coreAt sim c k) j := by
  unfold coreAt
  rw [Nat.add_comm, Function.iterate_add_apply]

theorem coreAt_succ (c : Core ι) (k : Nat) :
    coreAt sim c (k + 1) = sim.next (coreAt sim c k) :=
  Function.iterate_succ_apply' sim.next k c

theorem coreAt_succ_cycle_ne (hadv : Advances sim) {c : Core ι} {j : Nat}
    (hlive : (coreAt sim c j).live = true) :
    (coreAt sim c (j + 1)).cycle ≠ (coreAt sim c j).cycle := by
  rw [coreAt_succ]
  exact hadv _ hlive

theorem elapsed_eq_cyclesTo {c : Core ι} {k : Nat} (h : cyclesTo sim c k < 2 ^ 64) :
    ((coreAt sim c k).cycle - c.cycle).toNat = cyclesTo sim c k :=
  toNat_sub_start_of_lt (c := fun j => (coreAt sim c j).cycle) h

/-- A stretch of live instructions takes at least one cycle each. -/
theorem le_cyclesTo (hadv : Advances sim) {c : Core ι} {k : Nat}
    (hlive : ∀ j < k, (coreAt sim c j).live = true) : k ≤ cyclesTo sim c k :=
  le_consumed fun j hj => coreAt_succ_cycle_ne hadv (hlive j hj)

end Core

/-! ## Registrations -/

namespace Mcu

@[simp] theorem trace_avr (m : Mcu ι) (symbol : String) : (m.trace symbol).avr = m.avr := by
  unfold trace
  split <;> rfl

@[simp] theorem trace_prog (m : Mcu ι) (symbol : String) : (m.trace symbol).prog = m.prog := by
  unfold trace
  split <;> rfl

@[simp] theorem watchStack_avr (m : Mcu ι) (low high : UInt16) :
    (m.watchStack low high).avr = m.avr := by
  unfold watchStack
  split <;> rfl

@[simp] theorem watchStack_prog (m : Mcu ι) (low high : UInt16) :
    (m.watchStack low high).prog = m.prog := by
  unfold watchStack
  split <;> rfl

end Mcu

/-! ## The loops as bounded while loops -/

/-- The body of `stepUntil` runs: within the budget, not at the stop address, not halted. -/
def untilGo (stop : UInt32) (cycleBudget start : UInt64) (c : Core ι) : Bool :=
  decide (cycleBudget > c.cycle - start) && stop != c.pc && c.live

/-- The body of `stepFor` runs. -/
def forGo (cycles start : UInt64) (c : Core ι) : Bool :=
  decide (cycles > c.cycle - start) && c.live

theorem untilGo_iff {stop : UInt32} {cycleBudget start : UInt64} {c : Core ι} :
    untilGo stop cycleBudget start c = true
      ↔ c.cycle - start < cycleBudget ∧ c.pc ≠ stop ∧ c.live = true := by
  simp only [untilGo, Bool.and_eq_true, decide_eq_true_eq, bne_iff_ne, ne_eq, gt_iff_lt, and_assoc,
    eq_comm (a := stop)]

theorem forGo_iff {cycles start : UInt64} {c : Core ι} :
    forGo cycles start c = true ↔ c.cycle - start < cycles ∧ c.live = true := by
  simp only [forGo, Bool.and_eq_true, decide_eq_true_eq, gt_iff_lt]

/--
`stepUntil` ends in the state its loop leaves, and reports an arrival when that state is at the
stop address with both bounds still open.
-/
theorem stepUntil_eq (sim : Simavr ι) (stop : UInt32) (cycleBudget start : UInt64) :
    ∀ (n : Nat) (m : Mcu ι),
      m.stepUntil sim stop cycleBudget start n
        = (⟨decide (passes (fun m => untilGo stop cycleBudget start m.avr) (Mcu.tick sim) n m < n)
              && decide ((stepWhile (fun m => untilGo stop cycleBudget start m.avr)
                  (Mcu.tick sim) n m).avr.cycle - start < cycleBudget)
              && decide ((stepWhile (fun m => untilGo stop cycleBudget start m.avr)
                  (Mcu.tick sim) n m).avr.pc = stop),
            (stepWhile (fun m => untilGo stop cycleBudget start m.avr)
              (Mcu.tick sim) n m).avr.cycle - start⟩,
          stepWhile (fun m => untilGo stop cycleBudget start m.avr) (Mcu.tick sim) n m)
  | 0, m => by simp [Mcu.stepUntil, stepWhile, passes, Mcu.cycle]
  | n + 1, m => by
    rw [Mcu.stepUntil, stepWhile, passes]
    by_cases hb : cycleBudget > m.cycle - start
    · rw [if_pos hb]
      have hb' : m.avr.cycle - start < cycleBudget := hb
      by_cases hs : stop = m.avr.pc
      · have hgo : untilGo stop cycleBudget start m.avr = false := by simp [untilGo, hs]
        rw [if_pos hs]
        simp [hs.symm, hgo, hb', Mcu.cycle]
      · rw [if_neg hs]
        cases hl : m.avr.live with
        | false =>
          have hgo : untilGo stop cycleBudget start m.avr = false := by simp [untilGo, hl]
          simp [hgo, Mcu.cycle, Ne.symm hs]
        | true =>
          have hgo : untilGo stop cycleBudget start m.avr = true :=
            untilGo_iff.mpr ⟨hb', Ne.symm hs, hl⟩
          rw [if_neg (by simp), hgo, if_pos rfl, if_pos rfl,
            stepUntil_eq sim stop cycleBudget start n (m.tick sim)]
          simp only [Nat.add_lt_add_iff_right]
    · have hb' : ¬ m.avr.cycle - start < cycleBudget := hb
      have hgo : untilGo stop cycleBudget start m.avr = false := by simp [untilGo, hb']
      simp [hgo, hb', Mcu.cycle]

theorem stepFor_eq (sim : Simavr ι) (cycles start : UInt64) : ∀ (n : Nat) (m : Mcu ι),
    m.stepFor sim cycles start n
      = stepWhile (fun m => forGo cycles start m.avr) (Mcu.tick sim) n m
  | 0, _ => rfl
  | n + 1, m => by
    rw [Mcu.stepFor, stepWhile]
    by_cases hb : cycles > m.cycle - start
    · rw [if_pos hb]
      cases hl : m.avr.live with
      | false =>
        have hgo : forGo cycles start m.avr = false := by simp [forGo, hl]
        simp [hgo]
      | true =>
        have hgo : forGo cycles start m.avr = true := forGo_iff.mpr ⟨hb, hl⟩
        rw [if_neg (by simp), hgo, if_pos rfl, stepFor_eq sim cycles start n (m.tick sim)]
    · have hgo : forGo cycles start m.avr = false := by
        have hb' : ¬ m.avr.cycle - start < cycles := hb
        simp [forGo, hb']
      simp [hb, hgo]

/-! ## The loop of an operation -/

/-- A loop over the core: where it starts, its guard and its bound on the passes. -/
structure StepLoop (ι : Type) where
  start : Core ι
  go : Core ι → Bool
  cap : Nat

namespace StepLoop

/-- The number of instructions the loop runs. -/
def steps (sim : Simavr ι) (l : StepLoop ι) : Nat := passes l.go sim.next l.cap l.start

/-- The core after each instruction, oldest first. -/
def cores (sim : Simavr ι) (l : StepLoop ι) : List (Core ι) :=
  visited l.go sim.next l.cap l.start

/-- The core the loop leaves. -/
def final (sim : Simavr ι) (l : StepLoop ι) : Core ι := stepWhile l.go sim.next l.cap l.start

theorem final_eq_coreAt (sim : Simavr ι) (l : StepLoop ι) :
    l.final sim = coreAt sim l.start (l.steps sim) :=
  stepWhile_eq_iterate _ _ _ _

end StepLoop

/-- The loop of `call` and `runUntil` from a core that is ready to go. -/
def untilLoop (stop : UInt32) (cycleBudget : UInt64) (c : Core ι) : StepLoop ι :=
  ⟨c, untilGo stop cycleBudget c.cycle, cycleBudget.toNat⟩

/-- The loop of `run` from a core that is ready to go. -/
def forLoop (cycles : UInt64) (c : Core ι) : StepLoop ι :=
  ⟨c, forGo cycles c.cycle, cycles.toNat⟩

/-- The loop an operation runs, if it runs one. -/
def Program.stepLoop (prog : Program) (c : Core ι) : Op → Option (StepLoop ι)
  | .call symbol cycleBudget =>
    if noAddress = prog.address symbol then none
    else some (untilLoop prog.trap cycleBudget (prog.enterCall (prog.address symbol) c))
  | .run cycles => some (forLoop cycles c.wake)
  | .runUntil symbol cycleBudget =>
    if noAddress = prog.address symbol then none
    else some (untilLoop (prog.address symbol) cycleBudget c.wake)
  | _ => none

/-- A machine that runs a loop: the core steps, and every step is sampled. -/
def Mcu.runLoop (sim : Simavr ι) (l : StepLoop ι) (m : Mcu ι) : Mcu ι :=
  stepWhile (fun m => l.go m.avr) (Mcu.tick sim) l.cap { m with avr := l.start }

/-- What `call` and `runUntil` report about a loop. -/
def StepLoop.report (sim : Simavr ι) (l : StepLoop ι) (stop : UInt32) (cycleBudget : UInt64) :
    Call :=
  ⟨decide (l.steps sim < l.cap) && decide ((l.final sim).cycle - l.start.cycle < cycleBudget)
      && decide ((l.final sim).pc = stop),
    (l.final sim).cycle - l.start.cycle⟩

namespace Mcu

theorem runLoop_eq_iterate (sim : Simavr ι) (l : StepLoop ι) (m : Mcu ι) :
    m.runLoop sim l = (tick sim)^[l.steps sim] { m with avr := l.start } := by
  rw [runLoop, stepWhile_eq_iterate, passes_map (tick_avr sim) (fun _ => rfl)]
  rfl

@[simp] theorem runLoop_avr (sim : Simavr ι) (l : StepLoop ι) (m : Mcu ι) :
    (m.runLoop sim l).avr = l.final sim :=
  map_stepWhile (π := Mcu.avr) (tick_avr sim) (fun _ => rfl) l.cap _

@[simp] theorem runLoop_prog (sim : Simavr ι) (l : StepLoop ι) (m : Mcu ι) :
    (m.runLoop sim l).prog = m.prog := by
  rw [runLoop_eq_iterate, iterate_tick_prog]

/-- The loop of `call` and `runUntil`, reported and run. -/
theorem stepUntil_start (sim : Simavr ι) (stop : UInt32) (cycleBudget : UInt64) (m : Mcu ι)
    (c : Core ι) :
    ({ m with avr := c } : Mcu ι).stepUntil sim stop cycleBudget c.cycle cycleBudget.toNat
      = ((untilLoop stop cycleBudget c).report sim stop cycleBudget,
          m.runLoop sim (untilLoop stop cycleBudget c)) := by
  have hp : passes (fun m : Mcu ι => untilGo stop cycleBudget c.cycle m.avr) (tick sim)
      cycleBudget.toNat { m with avr := c }
      = passes (untilGo stop cycleBudget c.cycle) sim.next cycleBudget.toNat c :=
    passes_map (tick_avr sim) (fun _ => rfl) cycleBudget.toNat _
  have hf := runLoop_avr sim (untilLoop stop cycleBudget c) m
  rw [stepUntil_eq]
  simp only [StepLoop.report, StepLoop.steps]
  rw [hp, ← hf]
  rfl

theorem call_of_undefined (sim : Simavr ι) {symbol : String} (cycleBudget : UInt64) {m : Mcu ι}
    (h : m.address symbol = noAddress) : m.call sim symbol cycleBudget = (⟨false, 0⟩, m) := by
  simp [call, h]

theorem call_eq (sim : Simavr ι) {symbol : String} (cycleBudget : UInt64) {m : Mcu ι}
    (h : m.address symbol ≠ noAddress) :
    m.call sim symbol cycleBudget
      = ((untilLoop m.prog.trap cycleBudget (m.prog.enterCall (m.address symbol) m.avr)).report
            sim m.prog.trap cycleBudget,
          m.runLoop sim
            (untilLoop m.prog.trap cycleBudget (m.prog.enterCall (m.address symbol) m.avr))) := by
  rw [call, if_neg h.symm]
  exact stepUntil_start sim m.prog.trap cycleBudget m _

theorem runUntil_of_undefined (sim : Simavr ι) {symbol : String} (cycleBudget : UInt64)
    {m : Mcu ι} (h : m.address symbol = noAddress) :
    m.runUntil sim symbol cycleBudget = (⟨false, 0⟩, m) := by
  simp [runUntil, h]

theorem runUntil_eq (sim : Simavr ι) {symbol : String} (cycleBudget : UInt64) {m : Mcu ι}
    (h : m.address symbol ≠ noAddress) :
    m.runUntil sim symbol cycleBudget
      = ((untilLoop (m.address symbol) cycleBudget m.avr.wake).report sim (m.address symbol)
            cycleBudget,
          m.runLoop sim (untilLoop (m.address symbol) cycleBudget m.avr.wake)) := by
  rw [runUntil, if_neg h.symm]
  exact stepUntil_start sim (m.address symbol) cycleBudget m m.avr.wake

theorem run_eq (sim : Simavr ι) (cycles : UInt64) (m : Mcu ι) :
    m.run sim cycles
      = (((forLoop cycles m.avr.wake).final sim).cycle - m.avr.cycle,
          m.runLoop sim (forLoop cycles m.avr.wake)) := by
  have hm : m.runLoop sim (forLoop cycles m.avr.wake)
      = stepFor sim cycles m.avr.cycle cycles.toNat { m with avr := m.avr.wake } :=
    (stepFor_eq sim cycles m.avr.cycle cycles.toNat _).symm
  rw [← runLoop_avr sim _ m, hm]
  rfl

end Mcu

/-- **An operation that steps leaves what its loop leaves.** -/
theorem exec_snd_of_stepLoop (sim : Simavr ι) {m : Mcu ι} {op : Op} {l : StepLoop ι}
    (h : m.prog.stepLoop m.avr op = some l) : (exec sim m op).2 = m.runLoop sim l := by
  cases op with
  | call symbol cycleBudget =>
    simp only [Program.stepLoop] at h
    split at h
    · cases h
    · next hd =>
      cases h
      exact congrArg Prod.snd (Mcu.call_eq sim cycleBudget (Ne.symm hd))
  | run cycles =>
    cases h
    exact congrArg Prod.snd (Mcu.run_eq sim cycles m)
  | runUntil symbol cycleBudget =>
    simp only [Program.stepLoop] at h
    split at h
    · cases h
    · next hd =>
      cases h
      exact congrArg Prod.snd (Mcu.runUntil_eq sim cycleBudget (Ne.symm hd))
  | _ => cases h

end Avrsim
