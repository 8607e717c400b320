import Avrsim.Infra.Rearrange
import Avrsim.Isa
import Avrsim.Properties.Independence

/-!
# The order of preparations

Before anything runs a test registers what it wants measured, writes registers and memory, and
clears what was recorded. Where the registrations stand among all that makes no difference.

* `Op.Quiet` — operations that neither step nor reset the core
* `Op.Independent` — a registration and a quiet operation
* `alike_of_rearranged` — runs that exchange such neighbours leave the same
-/

namespace Avrsim

open Infra.Loop Infra.Rearrange

variable {ι : Type}

/-! ## What is left without the records -/

/-- The machine with nothing recorded of the program counter and the stack pointer. -/
def Mcu.bare (m : Mcu ι) : Mcu ι := { m with lowestStack := 0, traced := ∅, stackWatches := [] }

theorem bare_trace (m : Mcu ι) (symbol : String) : (m.trace symbol).bare = m.bare := by
  unfold Mcu.trace
  split <;> rfl

theorem bare_watchStack (m : Mcu ι) (low high : UInt16) :
    (m.watchStack low high).bare = m.bare := by
  unfold Mcu.watchStack
  split <;> rfl

theorem bare_of_registers (sim : Simavr ι) (m : Mcu ι) {op : Op} (hr : op.registers = true) :
    (exec sim m op).2.bare = m.bare := by
  cases op with
  | trace symbol => exact bare_trace m symbol
  | watchStack low high => exact bare_watchStack m low high
  | _ => cases hr

theorem bare_runLoop (sim : Simavr ι) (l : StepLoop ι) (m : Mcu ι) :
    (m.runLoop sim l).bare = (m.bare.runLoop sim l).bare := by
  have htick : ∀ m : Mcu ι, (m.tick sim).bare = (m.bare.tick sim).bare := fun _ => rfl
  have hgo : ∀ m : Mcu ι, l.go m.avr = l.go m.bare.avr := fun _ => rfl
  have hloop : ∀ m : Mcu ι, (m.runLoop sim l).bare
      = stepWhile (fun m => l.go m.avr) (fun m => (m.tick sim).bare) l.cap
          ({ m with avr := l.start } : Mcu ι).bare := by
    intro m
    exact @map_stepWhile _ _ _ (Mcu.tick sim) (fun m => l.go m.avr) (fun m => (m.tick sim).bare)
      Mcu.bare htick hgo l.cap _
  rw [hloop, hloop]
  rfl

/-- What an operation does to the rest of the machine does not depend on these records. -/
theorem bare_exec (sim : Simavr ι) (m : Mcu ι) (op : Op) :
    (exec sim m op).2.bare = (exec sim m.bare op).2.bare := by
  cases hl : m.prog.stepLoop m.avr op with
  | some l =>
    have hl' : m.bare.prog.stepLoop m.bare.avr op = some l := hl
    rw [exec_snd_of_stepLoop sim hl, exec_snd_of_stepLoop sim hl', bare_runLoop]
  | none =>
    have hl' : m.bare.prog.stepLoop m.bare.avr op = none := hl
    cases hs : op.steps with
    | true =>
      rw [exec_of_stepLoop_none sim hs hl, exec_of_stepLoop_none sim hs hl']
      rfl
    | false =>
      cases hr : op.registers with
      | true =>
        rw [bare_of_registers sim m hr, bare_of_registers sim m.bare hr]
        rfl
      | false =>
        cases op with
        | trace | watchStack => cases hr
        | call | run | runUntil => cases hs
        | _ => rfl

/-! ## Machines that read alike -/

/-- Two machines of which everything reads the same, whatever is looked up. -/
structure Mcu.Alike (m m' : Mcu ι) : Prop where
  bare : m.bare = m'.bare
  traced : ∀ symbol : String, m.traced[symbol]? = m'.traced[symbol]?
  watches : ∀ range, m.stackWatch range = m'.stackWatch range
  mark : m.lowestStackPtr = m'.lowestStackPtr

namespace Mcu.Alike

theorem equivalence : Equivalence (Mcu.Alike (ι := ι)) where
  refl _ := ⟨rfl, fun _ => rfl, fun _ => rfl, rfl⟩
  symm h := ⟨h.bare.symm, fun symbol => (h.traced symbol).symm, fun range => (h.watches range).symm,
    h.mark.symm⟩
  trans h h' := ⟨h.bare.trans h'.bare, fun symbol => (h.traced symbol).trans (h'.traced symbol),
    fun range => (h.watches range).trans (h'.watches range), h.mark.trans h'.mark⟩

variable {m m' : Mcu ι} (h : m.Alike m')

include h

theorem prog : m.prog = m'.prog := by
  have hprog : m.bare.prog = m'.bare.prog := by rw [h.bare]
  exact hprog

theorem avr : m.avr = m'.avr := by
  have havr : m.bare.avr = m'.bare.avr := by rw [h.bare]
  exact havr

/-- An operation keeps them so. -/
theorem exec (sim : Simavr ι) (op : Op) :
    (Avrsim.exec sim m op).2.Alike (Avrsim.exec sim m' op).2 := by
  constructor
  · rw [bare_exec, bare_exec sim m', h.bare]
  · intro symbol
    have hagree : (traceObserver sim symbol).Agree m m' := ⟨h.prog, h.avr, h.traced symbol⟩
    exact (hagree.exec op).view
  · intro range
    have hagree : (watchObserver sim range).Agree m m' := ⟨h.prog, h.avr, h.watches range⟩
    exact (hagree.exec op).view
  · have hagree : (markObserver sim).Agree m m' := ⟨h.prog, h.avr, h.mark⟩
    exact (hagree.exec op).view

end Mcu.Alike

/-! ## Independent operations -/

/-- An operation that neither steps nor resets the core. -/
def Op.Quiet (op : Op) : Prop := op.steps = false ∧ op ≠ .reset

/-- One of two operations is a registration, and the other one is quiet. -/
def Op.Independent (op op' : Op) : Prop :=
  op.registers = true ∧ op'.Quiet ∨ op'.registers = true ∧ op.Quiet

/-- A quiet operation does not move the program counter. -/
theorem pc_of_quiet (sim : Simavr ι) (m : Mcu ι) {op : Op} (hq : op.Quiet) :
    (exec sim m op).2.avr.pc = m.avr.pc := by
  rw [exec_avr]
  unfold coreAfter
  rw [stepLoop_of_not_steps hq.1]
  cases op with
  | reset => exact absurd rfl hq.2
  | setReg index value =>
    show (m.avr.setReg index value).pc = m.avr.pc
    unfold Core.setReg
    split <;> rfl
  | setRegPair low value =>
    show ((m.avr.setReg low _).setReg (low + 1) _).pc = m.avr.pc
    unfold Core.setReg
    split <;> split <;> rfl
  | setData addr value =>
    show (m.avr.setByte m.prog.part.ramend addr value).pc = m.avr.pc
    unfold Core.setByte
    split <;> rfl
  | _ => rfl

/-- Seen from the log of a symbol, a registration may stand before or after a quiet operation. -/
theorem seeTraced_swap (symbol : String) (prog : Program) (item : Option Traced) (pc : UInt32)
    {op op' : Op} (hr : op.registers = true) :
    seeTraced symbol prog (seeTraced symbol prog item (.issued op pc)) (.issued op' pc)
      = seeTraced symbol prog (seeTraced symbol prog item (.issued op' pc)) (.issued op pc) := by
  cases op with
  | trace symbol' =>
    by_cases hsymbol : symbol' = symbol
    · cases op' with
      | trace symbol'' =>
        by_cases hsymbol' : symbol'' = symbol <;> cases item <;>
          simp [seeTraced, hsymbol, hsymbol']
      | clearTrace symbol'' =>
        by_cases hsymbol' : symbol'' = symbol
        · cases item <;> simp [seeTraced, hsymbol, hsymbol', Traced.new, Trace.new, Trace.clear]
        · simp [seeTraced, hsymbol, hsymbol']
      | _ => rfl
    · have hself : ∀ item, seeTraced symbol prog item (.issued (.trace symbol') pc) = item := by
        simp [seeTraced, hsymbol]
      rw [hself, hself]
  | watchStack low high => rfl
  | _ => cases hr

theorem seeWatch_swap (range : UInt16 × UInt16) (w : Option StackWatch) (pc : UInt32)
    {op op' : Op} (hr : op.registers = true) :
    seeWatch range (seeWatch range w (.issued op pc)) (.issued op' pc)
      = seeWatch range (seeWatch range w (.issued op' pc)) (.issued op pc) := by
  cases op with
  | trace symbol => rfl
  | watchStack low high =>
    by_cases hrange : (low, high) = range
    · cases op' with
      | watchStack low' high' =>
        by_cases hrange' : (low', high') = range
        · obtain ⟨rfl, rfl⟩ := Prod.mk.inj (hrange.trans hrange'.symm)
          cases w <;> simp [seeWatch, hrange]
        · simp [seeWatch, hrange, hrange']
      | clearStack low' high' =>
        by_cases hrange' : (low', high') = range
        · cases w <;> simp [seeWatch, hrange, hrange', StackWatch.new, StackWatch.clear]
        · simp [seeWatch, hrange, hrange']
      | _ => rfl
    · have hself : ∀ w, seeWatch range w (.issued (.watchStack low high) pc) = w := by
        simp [seeWatch, hrange]
      rw [hself, hself]
  | _ => cases hr

theorem seeMark_swap (mark : UInt16) (pc : UInt32) {op op' : Op} (hr : op.registers = true) :
    seeMark (seeMark mark (.issued op pc)) (.issued op' pc)
      = seeMark (seeMark mark (.issued op' pc)) (.issued op pc) := by
  cases op with
  | trace | watchStack => rfl
  | _ => cases hr

/-- A registration and a quiet operation may change places. -/
theorem alike_swap (sim : Simavr ι) (m : Mcu ι) {op op' : Op} (hr : op.registers = true)
    (hq : op'.Quiet) :
    (exec sim (exec sim m op).2 op').2.Alike (exec sim (exec sim m op').2 op).2 := by
  have hs := steps_of_registers hr
  have havr := exec_avr_of_registers sim m hr
  have hpc := pc_of_quiet sim m hq
  constructor
  · rw [bare_exec, bare_of_registers sim m hr, ← bare_exec, bare_of_registers sim _ hr]
  · intro symbol
    have hview := (traceObserver sim symbol).view_exec
    show (traceObserver sim symbol).view _ = (traceObserver sim symbol).view _
    rw [hview _ op' hq.1, hview _ op hs, hview _ op hs, hview _ op' hq.1, exec_prog, exec_prog,
      havr, hpc]
    exact seeTraced_swap symbol m.prog _ _ hr
  · intro range
    have hview := (watchObserver sim range).view_exec
    show (watchObserver sim range).view _ = (watchObserver sim range).view _
    rw [hview _ op' hq.1, hview _ op hs, hview _ op hs, hview _ op' hq.1, exec_prog, exec_prog,
      havr, hpc]
    exact seeWatch_swap range _ _ hr
  · have hview := (markObserver sim).view_exec
    show (markObserver sim).view _ = (markObserver sim).view _
    rw [hview _ op' hq.1, hview _ op hs, hview _ op hs, hview _ op' hq.1, exec_prog, exec_prog,
      havr, hpc]
    exact seeMark_swap _ _ hr

/--
**The order of registrations makes no difference.** Two runs are rearranged when neighbours change
places of which one registers a trace or a stack watch and the other one neither steps nor resets
the core. They leave the same core and the same pin logs, and whatever is looked up reads the same:
the log of every symbol, the watch on every range, and the watermark.
-/
theorem alike_of_rearranged (sim : Simavr ι) {ops ops' : List Op}
    (h : Rearranged Op.Independent ops ops') (m : Mcu ι) :
    (runOps sim m ops).Alike (runOps sim m ops') := by
  refine foldl_rearranged Mcu.Alike.equivalence (fun h op => h.exec sim op) ?_ h m
  rintro op op' (⟨hr, hq⟩ | ⟨hr, hq⟩) s
  · exact alike_swap sim s hr hq
  · exact Mcu.Alike.equivalence.symm (alike_swap sim s hr hq)

/-- Two traces and a watch, registered in another order and after a register has been written. -/
theorem alike_of_rearranged_turns :
    (runOps Isa.simavr Isa.turns [.run 1, .trace "f", .watchStack 0x0500 0x08FF, .trace "main",
        .setReg 24 7, .run 5]).Alike
      (runOps Isa.simavr Isa.turns [.run 1, .trace "main", .trace "f", .setReg 24 7,
        .watchStack 0x0500 0x08FF, .run 5]) := by
  have hperm : [Op.trace "f", .watchStack 0x0500 0x08FF, .trace "main"].Perm
      [.trace "main", .trace "f", .watchStack 0x0500 0x08FF] := by decide
  have hindep : ∀ op ∈ [Op.trace "f", .watchStack 0x0500 0x08FF, .trace "main"],
      ∀ op' ∈ [Op.trace "f", .watchStack 0x0500 0x08FF, .trace "main"],
        op.Independent op' := by
    simp [Op.Independent, Op.Quiet, Op.registers, Op.steps]
  have hlater : Op.Independent (.watchStack 0x0500 0x08FF) (.setReg 24 7) :=
    Or.inl ⟨rfl, rfl, by simp⟩
  have hswap := Rearranged.swap [.run 1, .trace "main", .trace "f"] [.run 5] hlater
  have hblock := (Rearranged.of_perm hperm hindep).around [.run 1] [.setReg 24 7, .run 5]
  exact alike_of_rearranged Isa.simavr (hblock.trans hswap) Isa.turns

end Avrsim
