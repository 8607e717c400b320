import Avrsim.Infra.Budget
import Avrsim.Properties.Arrival
import Avrsim.Properties.Simulation

/-!
# Budgets

The budget of `call` and `runUntil` only decides how long they go on. It has no say in what they
find, and it need not be spent at once.

* `dialogue_of_roomier` — where every arrival was reported, more budget changes nothing at all
* `runUntil_split` — waiting for an arrival in two instalments is waiting for it once
-/

namespace Avrsim

open Infra.Loop Infra.Budget

variable {ι : Type}

/-! ## The loop of `call` and `runUntil` -/

/-- The core is neither at `stop` nor halted. -/
def onItsWay (stop : UInt32) (c : Core ι) : Bool := stop != c.pc && c.live

theorem steps_untilLoop (sim : Simavr ι) (stop : UInt32) (cycleBudget : UInt64) (c : Core ι) :
    (untilLoop stop cycleBudget c).steps sim
      = passesWithin Core.cycle (onItsWay stop) sim.next cycleBudget c := by
  have hgo : ∀ c' : Core ι, untilGo stop cycleBudget c.cycle c'
      = within Core.cycle (onItsWay stop) cycleBudget c.cycle c' := by
    intro c'
    simp [untilGo, within, onItsWay, Bool.and_assoc]
  simp only [StepLoop.steps, untilLoop, passesWithin, funext hgo]

/-- An arrival is reported when the loop stops at `stop` with something left of its budget. -/
theorem returned_iff_openAfter (sim : Simavr ι) (stop : UInt32) (cycleBudget : UInt64)
    (c : Core ι) :
    ((untilLoop stop cycleBudget c).report sim stop cycleBudget).returned = true
      ↔ OpenAfter Core.cycle sim.next cycleBudget c ((untilLoop stop cycleBudget c).steps sim)
        ∧ (coreAt sim c ((untilLoop stop cycleBudget c).steps sim)).pc = stop :=
  returned_untilLoop_iff sim stop cycleBudget c

theorem moves_of_advances {sim : Simavr ι} (hadv : Advances sim) (stop : UInt32) :
    Moves Core.cycle (onItsWay stop) sim.next := by
  intro c hc
  simp only [onItsWay, Bool.and_eq_true] at hc
  exact hadv c hc.2

/-! ## More budget -/

section Roomier

variable {sim : Simavr ι} {stop : UInt32} {budget budget' : UInt64} {c : Core ι}

/-- A loop that reports an arrival makes the same report of the same run with more budget. -/
theorem untilLoop_of_le
    (hret : ((untilLoop stop budget c).report sim stop budget).returned = true)
    (hle : budget ≤ budget') :
    (untilLoop stop budget' c).steps sim = (untilLoop stop budget c).steps sim
      ∧ (untilLoop stop budget' c).report sim stop budget'
          = (untilLoop stop budget c).report sim stop budget := by
  obtain ⟨⟨hpasses, hopen⟩, hpc⟩ := (returned_iff_openAfter sim stop budget c).mp hret
  have hsteps : (untilLoop stop budget' c).steps sim = (untilLoop stop budget c).steps sim := by
    rw [steps_untilLoop] at hpc
    rw [steps_untilLoop, steps_untilLoop]
    refine passesWithin_of_le hle ?_
    have hstop : stop = ((sim.next)^[_] c).pc := hpc.symm
    simp [onItsWay, ← hstop]
  refine ⟨hsteps, ?_⟩
  have hret' : ((untilLoop stop budget' c).report sim stop budget').returned = true := by
    rw [returned_iff_openAfter, hsteps]
    refine ⟨⟨?_, ?_⟩, hpc⟩
    · exact Nat.lt_of_lt_of_le hpasses hle
    · exact UInt64.lt_of_lt_of_le hopen hle
  have hcycles : ((untilLoop stop budget' c).report sim stop budget').cycles
      = ((untilLoop stop budget c).report sim stop budget).cycles := by
    rw [cycles_untilLoop, cycles_untilLoop, hsteps]
  cases hr : (untilLoop stop budget c).report sim stop budget
  cases hr' : (untilLoop stop budget' c).report sim stop budget'
  simp_all

/-- And leaves the same machine. -/
theorem runLoop_of_le (m : Mcu ι)
    (hret : ((untilLoop stop budget c).report sim stop budget).returned = true)
    (hle : budget ≤ budget') :
    m.runLoop sim (untilLoop stop budget' c) = m.runLoop sim (untilLoop stop budget c) := by
  rw [Mcu.runLoop_eq_iterate, Mcu.runLoop_eq_iterate, (untilLoop_of_le hret hle).1]
  rfl

end Roomier

/-- The same operation, with no less budget if it has one. -/
inductive Op.Roomier : Op → Op → Prop where
  | same (op : Op) : Roomier op op
  | call {symbol : String} {budget budget' : UInt64} (hle : budget ≤ budget') :
      Roomier (.call symbol budget) (.call symbol budget')
  | runUntil {symbol : String} {budget budget' : UInt64} (hle : budget ≤ budget') :
      Roomier (.runUntil symbol budget) (.runUntil symbol budget')

/-- The same command, with no less budget if it has one. -/
inductive Command.Roomier : Command → Command → Prop where
  | same (cmd : Command) : Roomier cmd cmd
  | op {operation operation' : Op} (h : operation.Roomier operation') :
      Roomier (.op operation) (.op operation')

/-- Nothing that was waited for has failed to arrive. -/
def Outcome.arrived : Outcome → Bool
  | .call result => result.returned
  | _ => true

theorem Op.Roomier.exec {sim : Simavr ι} {m : Mcu ι} {op op' : Op} (h : op.Roomier op')
    (harrived : (Avrsim.exec sim m op).1.arrived = true) :
    Avrsim.exec sim m op' = Avrsim.exec sim m op := by
  cases h with
  | same => rfl
  | @call symbol budget budget' hle =>
    have hret : (m.call sim symbol budget).1.returned = true := harrived
    have hcall : m.call sim symbol budget' = m.call sim symbol budget := by
      by_cases hdef : m.address symbol = noAddress
      · rw [Mcu.call_of_undefined sim budget hdef, Mcu.call_of_undefined sim budget' hdef]
      · rw [Mcu.call_eq sim budget hdef] at hret ⊢
        rw [Mcu.call_eq sim budget' hdef, (untilLoop_of_le hret hle).2, runLoop_of_le m hret hle]
    simp only [Avrsim.exec, hcall]
  | @runUntil symbol budget budget' hle =>
    have hret : (m.runUntil sim symbol budget).1.returned = true := harrived
    have huntil : m.runUntil sim symbol budget' = m.runUntil sim symbol budget := by
      by_cases hdef : m.address symbol = noAddress
      · rw [Mcu.runUntil_of_undefined sim budget hdef, Mcu.runUntil_of_undefined sim budget' hdef]
      · rw [Mcu.runUntil_eq sim budget hdef] at hret ⊢
        rw [Mcu.runUntil_eq sim budget' hdef, (untilLoop_of_le hret hle).2,
          runLoop_of_le m hret hle]
    simp only [Avrsim.exec, huntil]

/-- A command that has arrived does the same with more budget. -/
theorem Command.Roomier.exec {sim : Simavr ι} {m : Mcu ι} {cmd cmd' : Command}
    (h : cmd.Roomier cmd')
    (harrived : (cmd.outcome sim m).arrived = true) :
    cmd'.exec sim m = cmd.exec sim m ∧ cmd'.outcome sim m = cmd.outcome sim m := by
  cases h with
  | same => exact ⟨rfl, rfl⟩
  | @op operation operation' h =>
    have hexec : Avrsim.exec sim m operation' = Avrsim.exec sim m operation :=
      h.exec harrived
    simp only [Command.exec, Command.outcome, hexec]
    exact ⟨trivial, trivial⟩

/--
**More budget changes nothing where everything arrived.** If every call and every wait of a session
reports an arrival, the session with larger budgets, each chosen on its own, returns the same from
every command and leaves the same to be read after it. Nothing is assumed about the core.
-/
theorem dialogue_of_roomier {sim : Simavr ι} {cmds cmds' : List Command} {m : Mcu ι}
    (h : List.Forall₂ Command.Roomier cmds cmds')
    (harrived : ∀ out readings, .ok (out, readings) ∈ dialogue sim m cmds → out.arrived = true) :
    dialogue sim m cmds' = dialogue sim m cmds := by
  induction h generalizing m with
  | nil => rfl
  | @cons cmd cmd' cmds cmds' hcmd _ ih =>
    rw [dialogue] at harrived
    rw [dialogue, dialogue]
    cases hrun : cmd.exec sim m with
    | error message =>
      cases hcmd with
      | same => rw [hrun]
      | op => cases hrun
    | ok m' =>
      simp only [hrun] at harrived
      obtain ⟨hexec, houtcome⟩ := hcmd.exec (harrived _ _ List.mem_cons_self)
      rw [hexec, houtcome, hrun]
      simp only
      rw [ih fun out readings hmem => harrived out readings (List.mem_cons_of_mem _ hmem)]

/-- Both waits arrive with little budget, and with more of it they find the same. -/
theorem dialogue_of_roomier_turns :
    dialogue Isa.simavr Isa.turns
        [.op (.runUntil "f" 1000), .op (.trace "main"), .op (.runUntil "main" 10)]
      = dialogue Isa.simavr Isa.turns
        [.op (.runUntil "f" 3), .op (.trace "main"), .op (.runUntil "main" 10)] := by
  refine dialogue_of_roomier ?_ ?_
  · refine .cons (.op (.runUntil (by decide))) (.cons (.same _) (.cons (.same _) .nil))
  · intro out readings hmem
    simp only [dialogue, Command.exec, Command.outcome, List.mem_cons, List.not_mem_nil, or_false,
      Except.ok.injEq, Prod.mk.injEq] at hmem
    rcases hmem with ⟨rfl, -⟩ | ⟨rfl, -⟩ | ⟨rfl, -⟩
    · decide +kernel
    · rfl
    · decide +kernel

/-! ## Two instalments -/

/-- Two loops in a row are one loop that makes the instructions of both. -/
theorem Mcu.runLoop_add {sim : Simavr ι} {l first second : StepLoop ι} (m : Mcu ι)
    (hstart : l.start = first.start) (hnext : second.start = first.final sim)
    (hsteps : l.steps sim = first.steps sim + second.steps sim) :
    m.runLoop sim l = (m.runLoop sim first).runLoop sim second := by
  have hself : ({ m.runLoop sim first with avr := second.start } : Mcu ι)
      = m.runLoop sim first := by
    rw [hnext, ← Mcu.runLoop_avr sim first m]
  rw [Mcu.runLoop_eq_iterate sim second, hself, Mcu.runLoop_eq_iterate sim l,
    Mcu.runLoop_eq_iterate sim first, hsteps, hstart, Nat.add_comm, Function.iterate_add_apply]

section Instalments

/-
The wait with the budget `a` makes `k` instructions from `c` and takes `x` cycles.
-/
variable {sim : Simavr ι} (hadv : Advances sim) {stop : UInt32} {a b x : UInt64} {c : Core ι}
  {k : Nat} (hk : (untilLoop stop a c).steps sim = k) (hx : x = (coreAt sim c k).cycle - c.cycle)
  (hsum : x.toNat + b.toNat < 2 ^ 64) (ha : cyclesTo sim c k < 2 ^ 64)
  (hab : cyclesTo sim c ((untilLoop stop (x + b) c).steps sim) < 2 ^ 64)

include hadv hk hx hsum ha hab

theorem steps_untilLoop_add :
    (untilLoop stop (x + b) c).steps sim
      = k + (untilLoop stop b (coreAt sim c k)).steps sim := by
  rw [steps_untilLoop] at hk hab ⊢
  rw [steps_untilLoop]
  exact passesWithin_add (moves_of_advances hadv stop) hk hx ha hsum hab

theorem report_untilLoop_add :
    (untilLoop stop (x + b) c).report sim stop (x + b)
      = ⟨((untilLoop stop b (coreAt sim c k)).report sim stop b).returned,
          x + ((untilLoop stop b (coreAt sim c k)).report sim stop b).cycles⟩ := by
  have hsteps := steps_untilLoop_add hadv hk hx hsum ha hab
  have hcore : coreAt sim c (k + (untilLoop stop b (coreAt sim c k)).steps sim)
      = coreAt sim (coreAt sim c k) ((untilLoop stop b (coreAt sim c k)).steps sim) :=
    coreAt_add c k _
  have hreturned : ((untilLoop stop (x + b) c).report sim stop (x + b)).returned
      = ((untilLoop stop b (coreAt sim c k)).report sim stop b).returned := by
    rw [Bool.eq_iff_iff, returned_iff_openAfter, returned_iff_openAfter, hsteps, hcore]
    refine and_congr_left fun _ => ?_
    rw [hsteps] at hab
    rw [steps_untilLoop] at hk
    refine openAfter_add (moves_of_advances hadv stop) hk ?_ hx hsum hab
    exact (steps_untilLoop sim stop b (coreAt sim c k)).symm
  have hcycles : ((untilLoop stop (x + b) c).report sim stop (x + b)).cycles
      = x + ((untilLoop stop b (coreAt sim c k)).report sim stop b).cycles := by
    rw [cycles_untilLoop, cycles_untilLoop, hsteps, hcore, hx]
    grind
  rw [← hreturned, ← hcycles]

end Instalments

/--
**Waiting in two instalments is waiting once.** Let `runUntil` with the budget `a` take `x` cycles
and leave the core running, whether it has arrived or not. When no loop turns the cycle counter all
the way round, then to go on with the budget `b` reports and leaves what a single wait with the
budget `x + b` does, with `x` more cycles.
-/
theorem runUntil_split {sim : Simavr ι} (hadv : Advances sim) {m : Mcu ι} {symbol : String}
    (hdef : m.address symbol ≠ noAddress) {a b : UInt64}
    (hrunning : (m.runUntil sim symbol a).2.avr.state = .running)
    (hsum : (m.runUntil sim symbol a).1.cycles.toNat + b.toNat < 2 ^ 64)
    (ha : cyclesTo sim m.avr.wake
      ((untilLoop (m.address symbol) a m.avr.wake).steps sim) < 2 ^ 64)
    (hab : cyclesTo sim m.avr.wake
      ((untilLoop (m.address symbol) ((m.runUntil sim symbol a).1.cycles + b) m.avr.wake).steps
        sim) < 2 ^ 64) :
    m.runUntil sim symbol ((m.runUntil sim symbol a).1.cycles + b)
      = (⟨((m.runUntil sim symbol a).2.runUntil sim symbol b).1.returned,
          (m.runUntil sim symbol a).1.cycles
            + ((m.runUntil sim symbol a).2.runUntil sim symbol b).1.cycles⟩,
        ((m.runUntil sim symbol a).2.runUntil sim symbol b).2) := by
  obtain ⟨m₁, hm₁⟩ : ∃ m₁, (m.runUntil sim symbol a).2 = m₁ := ⟨_, rfl⟩
  obtain ⟨x, hx⟩ : ∃ x, (m.runUntil sim symbol a).1.cycles = x := ⟨_, rfl⟩
  rw [hx] at hsum hab ⊢
  rw [hm₁] at hrunning ⊢
  rw [Mcu.runUntil_eq sim a hdef] at hx hm₁
  obtain ⟨k, hk⟩ : ∃ k, (untilLoop (m.address symbol) a m.avr.wake).steps sim = k := ⟨_, rfl⟩
  rw [hk] at ha
  have hxk : x = (coreAt sim m.avr.wake k).cycle - m.avr.wake.cycle := by
    rw [← hx, ← hk]
    exact cycles_untilLoop sim (m.address symbol) a m.avr.wake
  have havr : m₁.avr = coreAt sim m.avr.wake k := by
    rw [← hm₁, Mcu.runLoop_avr, StepLoop.final_eq_coreAt, ← hk]
    rfl
  have haddress : m₁.address symbol = m.address symbol := by
    rw [← hm₁]
    exact congrArg (fun prog : Program => prog.address symbol) (Mcu.runLoop_prog sim _ m)
  have hdef₁ : m₁.address symbol ≠ noAddress := haddress ▸ hdef
  have hwake : m₁.avr.wake = coreAt sim m.avr.wake k := (Core.wake_eq_self hrunning).trans havr
  rw [Mcu.runUntil_eq sim (x + b) hdef, Mcu.runUntil_eq sim b hdef₁, haddress, hwake]
  refine Prod.ext ?_ ?_
  · exact report_untilLoop_add hadv hk hxk hsum ha hab
  · rw [← hm₁]
    refine Mcu.runLoop_add m rfl ?_ ?_
    · rw [StepLoop.final_eq_coreAt, ← hk]
      rfl
    · rw [hk]
      exact steps_untilLoop_add hadv hk hxk hsum ha hab

/-- One cycle is not enough to get to `f`, and with five more it is there after the second. -/
theorem runUntil_split_turns :
    Isa.turns.runUntil Isa.simavr "f" ((Isa.turns.runUntil Isa.simavr "f" 1).1.cycles + 5)
        = (⟨((Isa.turns.runUntil Isa.simavr "f" 1).2.runUntil Isa.simavr "f" 5).1.returned,
            (Isa.turns.runUntil Isa.simavr "f" 1).1.cycles
              + ((Isa.turns.runUntil Isa.simavr "f" 1).2.runUntil Isa.simavr "f" 5).1.cycles⟩,
          ((Isa.turns.runUntil Isa.simavr "f" 1).2.runUntil Isa.simavr "f" 5).2)
      ∧ (Isa.turns.runUntil Isa.simavr "f" 1).1 = ⟨false, 1⟩
      ∧ ((Isa.turns.runUntil Isa.simavr "f" 1).2.runUntil Isa.simavr "f" 5).1 = ⟨true, 1⟩ := by
  refine ⟨?_, by decide +kernel, by decide +kernel⟩
  exact runUntil_split (fun _ => Isa.cycle_ne_next) (by decide +kernel) (by decide +kernel)
    (by decide +kernel) (by decide +kernel) (by decide +kernel)

end Avrsim
