import Avrsim.Run

/-!
# Programs that agree

A machine asks its program only for the address of a symbol, the end of an extent, the trap and the
device. Two programs that give the same answers can be exchanged under a machine.

* `Program.Agree` — two programs that give the same answers
* `exec_withProg` and `Command.exec_withProg` — what a machine does with either
* `transcript_withProg` — a session cannot tell them apart
-/

namespace Avrsim

variable {ι : Type}

/-! ## Programs that agree -/

/-- Two programs that give the same answers, as long as only these names are asked for. -/
structure Program.Agree (names : String → Prop) (prog prog' : Program) : Prop where
  part : prog.part = prog'.part
  trap : prog.trap = prog'.trap
  extentEnd : ∀ begin, prog.extentEnd begin = prog'.extentEnd begin
  address : ∀ symbol, names symbol → prog.address symbol = prog'.address symbol

/-- The symbol an operation looks up. -/
def Op.symbol? : Op → Option String
  | .call symbol _ | .runUntil symbol _ | .trace symbol => some symbol
  | _ => none

/-- The symbol a command looks up. -/
def Command.symbol? : Command → Option String
  | .op operation => operation.symbol?
  | _ => none

/-- The same machine with another program. -/
def Mcu.withProg (prog : Program) (m : Mcu ι) : Mcu ι := { m with prog := prog }

namespace Mcu

variable (sim : Simavr ι) (prog : Program) (m : Mcu ι)

@[simp] theorem withProg_prog : (m.withProg prog).prog = prog := rfl
@[simp] theorem withProg_avr : (m.withProg prog).avr = m.avr := rfl
@[simp] theorem withProg_cycle : (m.withProg prog).cycle = m.cycle := rfl

/-- An instruction does not ask the program for anything. -/
theorem tick_withProg : (m.withProg prog).tick sim = (m.tick sim).withProg prog := rfl

theorem stepUntil_withProg (stop : UInt32) (cycleBudget start : UInt64) :
    ∀ (left : Nat) (m : Mcu ι),
      (m.withProg prog).stepUntil sim stop cycleBudget start left
        = ((m.stepUntil sim stop cycleBudget start left).1,
          (m.stepUntil sim stop cycleBudget start left).2.withProg prog)
  | 0, _ => rfl
  | left + 1, m => by
    rw [stepUntil, stepUntil, tick_withProg, stepUntil_withProg stop cycleBudget start left,
      withProg_cycle, withProg_avr]
    by_cases hbudget : cycleBudget > m.cycle - start
    · rw [if_pos hbudget, if_pos hbudget]
      by_cases hstop : stop = m.avr.pc
      · rw [if_pos hstop, if_pos hstop]
      · rw [if_neg hstop, if_neg hstop]
        by_cases hhalt : (!m.avr.live) = true
        · rw [if_pos hhalt, if_pos hhalt]
        · rw [if_neg hhalt, if_neg hhalt]
    · rw [if_neg hbudget, if_neg hbudget]

theorem stepFor_withProg (cycles start : UInt64) : ∀ (left : Nat) (m : Mcu ι),
    (m.withProg prog).stepFor sim cycles start left
      = (m.stepFor sim cycles start left).withProg prog
  | 0, _ => rfl
  | left + 1, m => by
    rw [stepFor, stepFor, tick_withProg, stepFor_withProg cycles start left, withProg_cycle,
      withProg_avr]
    by_cases hcycles : cycles > m.cycle - start
    · rw [if_pos hcycles, if_pos hcycles]
      by_cases hhalt : (!m.avr.live) = true
      · rw [if_pos hhalt, if_pos hhalt]
      · rw [if_neg hhalt, if_neg hhalt]
    · rw [if_neg hcycles, if_neg hcycles]

theorem run_withProg (cycles : UInt64) :
    (m.withProg prog).run sim cycles
      = ((m.run sim cycles).1, (m.run sim cycles).2.withProg prog) := by
  have hloop := stepFor_withProg sim prog cycles m.cycle cycles.toNat { m with avr := m.avr.wake }
  have hcycles := congrArg (fun m' : Mcu ι => m'.cycle - m.cycle) hloop
  exact Prod.ext hcycles hloop

theorem watchStack_withProg (low high : UInt16) :
    (m.withProg prog).watchStack low high = (m.watchStack low high).withProg prog := by
  cases hany : m.stackWatches.any (fun w => low == w.low && high == w.high) <;>
    simp [watchStack, withProg, hany]

theorem watch_withProg (port : Char) (bit : UInt8) :
    (m.withProg prog).watch sim port bit = (m.watch sim port bit).map (withProg prog) := by
  cases hpin : m.pins.contains (port, bit) <;> cases hirq : sim.avrIoGetirq (port, bit) <;>
    simp [watch, withProg, hpin, hirq, Except.map]

theorem drive_withProg (port : Char) (bit : UInt8) (level : Bool) :
    (m.withProg prog).drive sim port bit level = (m.drive sim port bit level).withProg prog := by
  unfold drive
  cases sim.avrIoGetirq (port, bit) <;> rfl

end Mcu

section

variable {names : String → Prop} {prog : Program} {m : Mcu ι} (h : m.prog.Agree names prog)

include h

theorem enterCall_agree (entry : UInt32) :
    prog.enterCall entry m.avr = m.prog.enterCall entry m.avr := by
  unfold Program.enterCall
  rw [h.part, h.trap]

theorem call_withProg (sim : Simavr ι) {symbol : String} (hname : names symbol)
    (cycleBudget : UInt64) :
    (m.withProg prog).call sim symbol cycleBudget
      = ((m.call sim symbol cycleBudget).1, (m.call sim symbol cycleBudget).2.withProg prog) := by
  have haddr : (m.withProg prog).address symbol = m.address symbol :=
    (h.address symbol hname).symm
  unfold Mcu.call
  simp only [haddr]
  by_cases hdef : noAddress = m.address symbol
  · rw [if_pos hdef, if_pos hdef]
  · rw [if_neg hdef, if_neg hdef]
    simp only [Mcu.withProg_prog, Mcu.withProg_avr, enterCall_agree h, ← h.trap]
    exact Mcu.stepUntil_withProg sim prog _ _ _ _
      { m with avr := m.prog.enterCall (m.address symbol) m.avr }

theorem runUntil_withProg (sim : Simavr ι) {symbol : String} (hname : names symbol)
    (cycleBudget : UInt64) :
    (m.withProg prog).runUntil sim symbol cycleBudget
      = ((m.runUntil sim symbol cycleBudget).1,
        (m.runUntil sim symbol cycleBudget).2.withProg prog) := by
  have haddr : (m.withProg prog).address symbol = m.address symbol :=
    (h.address symbol hname).symm
  unfold Mcu.runUntil
  simp only [haddr]
  by_cases hdef : noAddress = m.address symbol
  · rw [if_pos hdef, if_pos hdef]
  · rw [if_neg hdef, if_neg hdef]
    exact Mcu.stepUntil_withProg sim prog _ _ _ _ { m with avr := m.avr.wake }

theorem new_agree {symbol : String} (hname : names symbol) (pc : UInt32) :
    Traced.new prog symbol pc = Traced.new m.prog symbol pc := by
  unfold Traced.new
  simp only [h.address symbol hname, h.extentEnd]

theorem trace_withProg {symbol : String} (hname : names symbol) :
    (m.withProg prog).trace symbol = (m.trace symbol).withProg prog := by
  show (if m.traced.contains symbol then m.withProg prog
    else { m.withProg prog with
      traced := m.traced.insert symbol (Traced.new prog symbol m.avr.pc) }) = _
  rw [new_agree h hname]
  unfold Mcu.trace
  cases m.traced.contains symbol <;> rfl

/-- An operation does the same with either program. -/
theorem exec_withProg (sim : Simavr ι) {op : Op} (hop : ∀ symbol ∈ op.symbol?, names symbol) :
    exec sim (m.withProg prog) op = ((exec sim m op).1, (exec sim m op).2.withProg prog) := by
  cases op with
  | call symbol cycleBudget =>
    have hcall := call_withProg h sim (hop symbol rfl) cycleBudget
    simp only [exec, hcall]
  | runUntil symbol cycleBudget =>
    have hrun := runUntil_withProg h sim (hop symbol rfl) cycleBudget
    simp only [exec, hrun]
  | trace symbol =>
    have htrace := trace_withProg h (hop symbol rfl)
    simp only [exec, htrace]
  | run cycles =>
    have hrun := m.run_withProg sim prog cycles
    simp only [exec, hrun]
  | setData addr value =>
    have hpart := h.part
    simp only [exec, Mcu.setData, Mcu.withProg, hpart]
  | watchStack low high =>
    have hwatch := m.watchStack_withProg prog low high
    simp only [exec, hwatch]
  | _ => rfl

/-- A command does, too. -/
theorem Command.exec_withProg (sim : Simavr ι) {cmd : Command}
    (hcmd : ∀ symbol ∈ cmd.symbol?, names symbol) :
    cmd.exec sim (m.withProg prog) = (cmd.exec sim m).map (Mcu.withProg prog) := by
  cases cmd with
  | op operation =>
    have hexec := Avrsim.exec_withProg h sim hcmd
    simp only [Command.exec, hexec]
    rfl
  | watch port bit => exact m.watch_withProg sim prog port bit
  | drive port bit level =>
    have hdrive := m.drive_withProg sim prog port bit level
    simp only [Command.exec, hdrive]
    rfl

end

theorem Program.Agree.refl (names : String → Prop) (prog : Program) : prog.Agree names prog :=
  ⟨rfl, rfl, fun _ => rfl, fun _ _ => rfl⟩

/-- No command loads another program. -/
theorem Command.exec_prog {sim : Simavr ι} {m m' : Mcu ι} {cmd : Command}
    (h : cmd.exec sim m = .ok m') : m'.prog = m.prog := by
  have hsame : cmd.exec sim (m.withProg m.prog) = _ :=
    Command.exec_withProg (Program.Agree.refl (fun _ => True) m.prog) sim fun _ _ => trivial
  have hself : m.withProg m.prog = m := rfl
  rw [hself, h] at hsame
  have hprog := congrArg Mcu.prog (Except.ok.inj hsame)
  exact hprog

/-! ## Sessions -/

/-- What a machine shows: the core, and everything it has recorded. -/
structure Records (ι : Type) where
  avr : Core ι
  pins : PinMap
  lowestStack : UInt16
  traced : Std.TreeMap String Traced
  stackWatches : List StackWatch

def Mcu.records (m : Mcu ι) : Records ι :=
  ⟨m.avr, m.pins, m.lowestStack, m.traced, m.stackWatches⟩

/-- The result of a command. -/
def Command.outcome (sim : Simavr ι) (m : Mcu ι) : Command → Outcome
  | .op operation => (Avrsim.exec sim m operation).1
  | _ => .nothing

/-- All there is to see of a session: the results of the commands, and the records after each. -/
def transcript (sim : Simavr ι) : Mcu ι → List Command → List (Except String (Outcome × Records ι))
  | _, [] => []
  | m, cmd :: cmds =>
    match cmd.exec sim m with
    | .error message => [.error message]
    | .ok m' => .ok (cmd.outcome sim m, m'.records) :: transcript sim m' cmds

/-- **A session cannot tell two programs that agree apart.** -/
theorem transcript_withProg (sim : Simavr ι) {names : String → Prop} {prog : Program} :
    ∀ {m : Mcu ι}, m.prog.Agree names prog → ∀ cmds : List Command,
      (∀ cmd ∈ cmds, ∀ symbol ∈ cmd.symbol?, names symbol) →
        transcript sim (m.withProg prog) cmds = transcript sim m cmds
  | _, _, [], _ => rfl
  | m, h, cmd :: cmds, hcmds => by
    have hcmd := hcmds cmd List.mem_cons_self
    have hout : cmd.outcome sim (m.withProg prog) = cmd.outcome sim m := by
      cases cmd with
      | op operation =>
        show (exec sim (m.withProg prog) operation).1 = _
        rw [exec_withProg h sim hcmd]
        rfl
      | _ => rfl
    rw [transcript, transcript, Command.exec_withProg h sim hcmd, hout]
    cases hexec : cmd.exec sim m with
    | error message => rfl
    | ok m' =>
      have h' : m'.prog.Agree names prog := by
        rw [Command.exec_prog hexec]
        exact h
      have ih := transcript_withProg sim h' cmds fun c hc => hcmds c (List.mem_cons_of_mem _ hc)
      exact congrArg (_ :: ·) ih

end Avrsim
