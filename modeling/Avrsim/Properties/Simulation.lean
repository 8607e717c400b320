import Avrsim.Isa
import Avrsim.Properties.Interchange
import Avrsim.Properties.Paint
import Avrsim.Properties.Stepping

/-!
# Cores that simulate each other

Once a program is loaded, the harness reads five things of a core: the program counter, the cpu
state, the cycle counter, the data space and the flags. Two cores that keep those alike and raise
the same notifications, whatever else they keep and however they compute it, are the same core to
every test and to the tool.

* `Simulates` — a relation between the cores of two simulators that a step of both preserves
* `Mcu.Rel.exec`, `Mcu.Rel.command` — what is done to two related machines leaves them related
* `dialogue_eq` — no test can tell the two apart
* `run_eq_of_simulates` — nor can the tool
-/

namespace Avrsim

open Infra.Loop

variable {ι κ : Type}

/-! ## Related cores -/

/--
A relation between the cores of two simulators. Related cores look the same to the harness, and
stay related when the harness overwrites both in the same way, and when both do the same.
-/
structure Simulates (sim : Simavr ι) (sim' : Simavr κ) (R : Core ι → Core κ → Prop) : Prop where
  pc : ∀ {c d}, R c d → d.pc = c.pc
  state : ∀ {c d}, R c d → d.state = c.state
  cycle : ∀ {c d}, R c d → d.cycle = c.cycle
  data : ∀ {c d}, R c d → d.data = c.data
  sreg : ∀ {c d}, R c d → d.sreg = c.sreg
  overwrite : ∀ {c d}, R c d → ∀ pc state data sreg,
    R { c with pc := pc, state := state, data := data, sreg := sreg }
      { d with pc := pc, state := state, data := data, sreg := sreg }
  run : ∀ {c d}, R c d → c.live = true →
    R (sim.avrRun c).1 (sim'.avrRun d).1 ∧ (sim'.avrRun d).2 = (sim.avrRun c).2
  reset : ∀ {c d}, R c d →
    R (sim.avrReset c).1 (sim'.avrReset d).1 ∧ (sim'.avrReset d).2 = (sim.avrReset c).2
  irq : ∀ pin, sim'.avrIoGetirq pin = sim.avrIoGetirq pin
  raise : ∀ {c d}, R c d → ∀ pin value,
    R (sim.avrRaiseIrq pin value c).1 (sim'.avrRaiseIrq pin value d).1
      ∧ (sim'.avrRaiseIrq pin value d).2 = (sim.avrRaiseIrq pin value c).2

/-- The same machine around another core. -/
def Mcu.withAvr (d : Core κ) (m : Mcu ι) : Mcu κ :=
  ⟨m.prog, m.clockHz, d, m.pins, m.hooks, m.lowestStack, m.traced, m.stackWatches⟩

/-- Two machines that differ in their cores alone, and these are related. -/
def Mcu.Rel (R : Core ι → Core κ → Prop) (m : Mcu ι) (m' : Mcu κ) : Prop :=
  ∃ d, R m.avr d ∧ m' = m.withAvr d

namespace Mcu

variable {R : Core ι → Core κ → Prop} {m : Mcu ι} {m' : Mcu κ}

theorem Rel.avr (hm : Mcu.Rel R m m') : R m.avr m'.avr := by
  obtain ⟨d, hR, rfl⟩ := hm
  exact hR

theorem Rel.prog (hm : Mcu.Rel R m m') : m'.prog = m.prog := by
  obtain ⟨d, -, rfl⟩ := hm
  rfl

theorem Rel.clockHz (hm : Mcu.Rel R m m') : m'.clockHz = m.clockHz := by
  obtain ⟨d, -, rfl⟩ := hm
  rfl

/-- Another core on both sides. -/
theorem Rel.set (hm : Mcu.Rel R m m') {c : Core ι} {d : Core κ} (hR : R c d) :
    Mcu.Rel R { m with avr := c } { m' with avr := d } := by
  obtain ⟨d', -, rfl⟩ := hm
  exact ⟨d, hR, rfl⟩

theorem Rel.absorb (hm : Mcu.Rel R m m') {r : Core ι × List Notice} {r' : Core κ × List Notice}
    (hr : R r.1 r'.1 ∧ r'.2 = r.2) : Mcu.Rel R (m.absorb r) (m'.absorb r') := by
  obtain ⟨d, -, rfl⟩ := hm
  obtain ⟨c', notices⟩ := r
  obtain ⟨d', notices'⟩ := r'
  obtain ⟨hR, rfl⟩ := hr
  exact ⟨d', hR, rfl⟩

theorem Rel.watchStack (hm : Mcu.Rel R m m') (low high : UInt16) :
    Mcu.Rel R (m.watchStack low high) (m'.watchStack low high) := by
  obtain ⟨d, hR, rfl⟩ := hm
  unfold Mcu.watchStack Mcu.withAvr
  cases hany : m.stackWatches.any (fun w => low == w.low && high == w.high) with
  | true => exact ⟨d, hR, by simp [Mcu.withAvr]⟩
  | false => exact ⟨d, hR, by simp [Mcu.withAvr]⟩

end Mcu

/-- Two loops over related cores, in step. -/
structure StepLoop.Rel (R : Core ι → Core κ → Prop) (l : StepLoop ι) (l' : StepLoop κ) : Prop where
  start : R l.start l'.start
  go : ∀ {c d}, R c d → l'.go d = l.go c
  live : ∀ {c}, l.go c = true → c.live = true
  cap : l'.cap = l.cap

section

variable {sim : Simavr ι} {sim' : Simavr κ} {R : Core ι → Core κ → Prop}
  (h : Simulates sim sim' R)

include h

namespace Simulates

/-! ### What the harness does to a core -/

variable {c : Core ι} {d : Core κ} (hcd : R c d)

include hcd

theorem live : d.live = c.live := by
  unfold Core.live
  rw [h.state hcd]

theorem sp : d.sp = c.sp := by
  unfold Core.sp
  rw [h.data hcd]

theorem wake : R c.wake d.wake := by
  have hover := h.overwrite hcd c.pc .running c.data c.sreg
  have hd : { d with pc := c.pc, state := .running, data := c.data, sreg := c.sreg } = d.wake := by
    rw [← h.pc hcd, ← h.data hcd, ← h.sreg hcd]
    rfl
  rw [hd] at hover
  exact hover

/-- A core of which only the data space is overwritten. -/
theorem store (data : UInt16 → UInt8) : R { c with data := data } { d with data := data } := by
  have hover := h.overwrite hcd c.pc c.state data c.sreg
  have hd : { d with pc := c.pc, state := c.state, data := data, sreg := c.sreg }
      = { d with data := data } := by
    rw [← h.pc hcd, ← h.state hcd, ← h.sreg hcd]
  rw [hd] at hover
  exact hover

theorem write (addr : UInt16) (value : UInt8) : R (c.write addr value) (d.write addr value) := by
  unfold Core.write
  rw [h.data hcd]
  exact h.store hcd _

theorem setReg (index value : UInt8) : R (c.setReg index value) (d.setReg index value) := by
  unfold Core.setReg
  split
  · exact h.write hcd _ _
  · exact hcd

theorem setByte (ramend addr : UInt16) (value : UInt8) :
    R (c.setByte ramend addr value) (d.setByte ramend addr value) := by
  unfold Core.setByte
  split
  · exact h.write hcd _ _
  · exact hcd

theorem setSreg (value : UInt8) : R (c.setSreg value) (d.setSreg value) := by
  have hwrite := h.write hcd sregAddress value
  have hover := h.overwrite hwrite (c.write sregAddress value).pc (c.write sregAddress value).state
    (c.write sregAddress value).data (c.setSreg value).sreg
  have hd : { d.write sregAddress value with
        pc := (c.write sregAddress value).pc, state := (c.write sregAddress value).state
        data := (c.write sregAddress value).data, sreg := (c.setSreg value).sreg }
      = d.setSreg value := by
    rw [← h.pc hwrite, ← h.state hwrite, ← h.data hwrite]
    rfl
  rw [hd] at hover
  exact hover

theorem enterCall (prog : Program) (entry : UInt32) :
    R (prog.enterCall entry c) (prog.enterCall entry d) := by
  have hover := h.overwrite hcd entry .running (prog.enterCall entry c).data c.sreg
  have hd : { d with
        pc := entry, state := .running, data := (prog.enterCall entry c).data, sreg := c.sreg }
      = prog.enterCall entry d := by
    unfold Program.enterCall Core.write
    rw [← h.data hcd, ← h.sreg hcd]
  rw [hd] at hover
  exact hover

end Simulates

/-! ## Related machines -/

namespace Mcu.Rel

variable {m : Mcu ι} {m' : Mcu κ} (hm : Mcu.Rel R m m')

include hm

theorem sampleStack : Mcu.Rel R m.sampleStack m'.sampleStack := by
  obtain ⟨d, hR, rfl⟩ := hm
  refine ⟨d, hR, ?_⟩
  unfold Mcu.sampleStack Mcu.withAvr
  simp only [h.sp hR]

theorem sampleTraces : Mcu.Rel R m.sampleTraces m'.sampleTraces := by
  obtain ⟨d, hR, rfl⟩ := hm
  refine ⟨d, hR, ?_⟩
  unfold Mcu.sampleTraces Mcu.withAvr
  simp only [h.pc hR, h.cycle hR]

/-- One instruction of both cores. -/
theorem tick (hlive : m.avr.live = true) : Mcu.Rel R (m.tick sim) (m'.tick sim') :=
  (hm.absorb (h.run hm.avr hlive)).sampleStack h |>.sampleTraces h

end Mcu.Rel

/-! ### Loops -/

namespace Simulates

theorem untilLoop {c : Core ι} {d : Core κ} (hR : R c d) (stop : UInt32) (cycleBudget : UInt64) :
    StepLoop.Rel R (untilLoop stop cycleBudget c) (untilLoop stop cycleBudget d) where
  start := hR
  go := fun hR' => by
    show untilGo stop cycleBudget d.cycle _ = untilGo stop cycleBudget c.cycle _
    unfold untilGo
    rw [h.cycle hR, h.cycle hR', h.pc hR', h.live hR']
  live := fun hgo => (untilGo_iff.mp hgo).2.2
  cap := rfl

theorem forLoop {c : Core ι} {d : Core κ} (hR : R c d) (cycles : UInt64) :
    StepLoop.Rel R (forLoop cycles c) (forLoop cycles d) where
  start := hR
  go := fun hR' => by
    show forGo cycles d.cycle _ = forGo cycles c.cycle _
    unfold forGo
    rw [h.cycle hR, h.cycle hR', h.live hR']
  live := fun hgo => (forGo_iff.mp hgo).2
  cap := rfl

end Simulates

namespace StepLoop.Rel

variable {l : StepLoop ι} {l' : StepLoop κ} (hl : StepLoop.Rel R l l')

include hl

/-- The cores take as many instructions, and end up related. -/
theorem steps_final : l'.steps sim' = l.steps sim ∧ R (l.final sim) (l'.final sim') := by
  have hnext : ∀ c d, R c d → l.go c = true → R (sim.next c) (sim'.next d) :=
    fun _ _ hR hgo => (h.run hR (hl.live hgo)).1
  have hrel := rel_stepWhile (R := R) (fun _ _ hR => (hl.go hR).symm) hnext l.cap hl.start
  unfold steps final
  rw [hl.cap]
  exact ⟨hrel.1.symm, hrel.2⟩

theorem report (stop : UInt32) (cycleBudget : UInt64) :
    l'.report sim' stop cycleBudget = l.report sim stop cycleBudget := by
  obtain ⟨hsteps, hfinal⟩ := hl.steps_final h
  unfold StepLoop.report
  rw [hsteps, hl.cap, h.cycle hfinal, h.cycle hl.start, h.pc hfinal]

/-- The machines take the same samples on the way. -/
theorem runLoop {m : Mcu ι} {m' : Mcu κ} (hm : Mcu.Rel R m m') :
    Mcu.Rel R (m.runLoop sim l) (m'.runLoop sim' l') := by
  unfold Mcu.runLoop
  rw [hl.cap]
  exact (rel_stepWhile (fun _ _ hr => (hl.go hr.avr).symm)
    (fun _ _ hr hgo => hr.tick h (hl.live hgo)) l.cap (hm.set hl.start)).2

end StepLoop.Rel

/-! ### The member functions -/

namespace Mcu.Rel

variable {m : Mcu ι} {m' : Mcu κ} (hm : Mcu.Rel R m m')

include hm

theorem call (symbol : String) (cycleBudget : UInt64) :
    (m'.call sim' symbol cycleBudget).1 = (m.call sim symbol cycleBudget).1
      ∧ Mcu.Rel R (m.call sim symbol cycleBudget).2 (m'.call sim' symbol cycleBudget).2 := by
  have haddr : m'.address symbol = m.address symbol := by
    unfold Mcu.address
    rw [hm.prog]
  by_cases hdef : m.address symbol = noAddress
  · rw [Mcu.call_of_undefined sim cycleBudget hdef,
      Mcu.call_of_undefined sim' cycleBudget (haddr.trans hdef)]
    exact ⟨rfl, hm⟩
  · have hdef' : m'.address symbol ≠ noAddress := by
      rw [haddr]
      exact hdef
    have hl := h.untilLoop (h.enterCall hm.avr m.prog (m.address symbol)) m.prog.trap cycleBudget
    rw [Mcu.call_eq sim cycleBudget hdef, Mcu.call_eq sim' cycleBudget hdef', haddr, hm.prog]
    exact ⟨hl.report h m.prog.trap cycleBudget, hl.runLoop h hm⟩

theorem runUntil (symbol : String) (cycleBudget : UInt64) :
    (m'.runUntil sim' symbol cycleBudget).1 = (m.runUntil sim symbol cycleBudget).1
      ∧ Mcu.Rel R (m.runUntil sim symbol cycleBudget).2
          (m'.runUntil sim' symbol cycleBudget).2 := by
  have haddr : m'.address symbol = m.address symbol := by
    unfold Mcu.address
    rw [hm.prog]
  by_cases hdef : m.address symbol = noAddress
  · rw [Mcu.runUntil_of_undefined sim cycleBudget hdef,
      Mcu.runUntil_of_undefined sim' cycleBudget (haddr.trans hdef)]
    exact ⟨rfl, hm⟩
  · have hdef' : m'.address symbol ≠ noAddress := by
      rw [haddr]
      exact hdef
    have hl := h.untilLoop (h.wake hm.avr) (m.address symbol) cycleBudget
    rw [Mcu.runUntil_eq sim cycleBudget hdef, Mcu.runUntil_eq sim' cycleBudget hdef', haddr]
    exact ⟨hl.report h (m.address symbol) cycleBudget, hl.runLoop h hm⟩

theorem run (cycles : UInt64) :
    (m'.run sim' cycles).1 = (m.run sim cycles).1
      ∧ Mcu.Rel R (m.run sim cycles).2 (m'.run sim' cycles).2 := by
  have hl := h.forLoop (h.wake hm.avr) cycles
  rw [Mcu.run_eq, Mcu.run_eq, h.cycle (hl.steps_final h).2, h.cycle hm.avr]
  exact ⟨rfl, hl.runLoop h hm⟩

theorem reset : Mcu.Rel R (m.reset sim) (m'.reset sim') := by
  obtain ⟨d, hR, hrest⟩ := hm.absorb (h.reset hm.avr)
  unfold Mcu.reset
  exact ⟨d, hR, by simp only [hrest, Mcu.withAvr]⟩

theorem trace (symbol : String) : Mcu.Rel R (m.trace symbol) (m'.trace symbol) := by
  obtain ⟨d, hR, rfl⟩ := hm
  unfold Mcu.trace
  simp only [Mcu.withAvr, h.pc hR]
  split
  · exact ⟨d, hR, rfl⟩
  · exact ⟨d, hR, rfl⟩

theorem setData (addr : UInt16) (value : UInt8) :
    Mcu.Rel R (m.setData addr value) (m'.setData addr value) := by
  obtain ⟨d, hR, rfl⟩ := hm
  exact ⟨_, h.setByte hR m.prog.part.ramend addr value, rfl⟩

/-- An operation reports the same on both. -/
theorem exec (op : Op) :
    (exec sim' m' op).1 = (exec sim m op).1
      ∧ Mcu.Rel R (exec sim m op).2 (exec sim' m' op).2 := by
  cases op with
  | call symbol cycleBudget =>
    obtain ⟨hresult, hrel⟩ := hm.call h symbol cycleBudget
    exact ⟨congrArg Outcome.call hresult, hrel⟩
  | run cycles =>
    obtain ⟨hcycles, hrel⟩ := hm.run h cycles
    exact ⟨congrArg Outcome.cycles hcycles, hrel⟩
  | runUntil symbol cycleBudget =>
    obtain ⟨hresult, hrel⟩ := hm.runUntil h symbol cycleBudget
    exact ⟨congrArg Outcome.call hresult, hrel⟩
  | reset => exact ⟨rfl, hm.reset h⟩
  | trace symbol => exact ⟨rfl, hm.trace h symbol⟩
  | watchStack low high => exact ⟨rfl, hm.watchStack low high⟩
  | setReg index value => exact ⟨rfl, hm.set (h.setReg hm.avr index value)⟩
  | setRegPair low value => exact ⟨rfl, hm.set (h.setReg (h.setReg hm.avr low _) (low + 1) _)⟩
  | setData addr value => exact ⟨rfl, hm.setData h addr value⟩
  | setSreg value => exact ⟨rfl, hm.set (h.setSreg hm.avr value)⟩
  | clearTrace _ | clearStack _ _ | resetStackWatermark =>
    obtain ⟨d, hR, rfl⟩ := hm
    exact ⟨rfl, d, hR, rfl⟩

theorem drive (port : Char) (bit : UInt8) (level : Bool) :
    Mcu.Rel R (m.drive sim port bit level) (m'.drive sim' port bit level) := by
  unfold Mcu.drive
  rw [h.irq]
  split
  · exact hm.absorb (h.raise hm.avr _ _)
  · exact hm

end Mcu.Rel

/-! ## Results -/

/-- Two results that fail with the same message, or are both there and related. -/
inductive ResultRel {α β : Type} (S : α → β → Prop) : Except String α → Except String β → Prop where
  | error (message : String) : ResultRel S (.error message) (.error message)
  | ok {a : α} {b : β} (hab : S a b) : ResultRel S (.ok a) (.ok b)

namespace ResultRel

omit h

variable {α β γ δ : Type} {S : α → β → Prop} {T : γ → δ → Prop}

theorem bind {x : Except String α} {y : Except String β} {f : α → Except String γ}
    {g : β → Except String δ} (hxy : ResultRel S x y)
    (hfg : ∀ a b, S a b → ResultRel T (f a) (g b)) :
    ResultRel T (x >>= f) (y >>= g) := by
  cases hxy with
  | error message => exact .error message
  | ok hab => exact hfg _ _ hab

/-- What is the same in related results is the same in both. -/
theorem map_eq {x : Except String α} {y : Except String β} (hxy : ResultRel S x y) {f : α → γ}
    {g : β → γ} (hfg : ∀ a b, S a b → g b = f a) : y.map g = x.map f := by
  cases hxy with
  | error message => rfl
  | ok hab => exact congrArg Except.ok (hfg _ _ hab)

end ResultRel

/-! ## Sessions -/

/-- What a test can read back from a machine. -/
structure Readings where
  data : UInt16 → UInt8
  sreg : UInt8
  cycle : UInt64
  pins : PinMap
  lowestStack : UInt16
  traced : Std.TreeMap String Traced
  stackWatches : List StackWatch

omit h in
/-- Everything the functions of the harness that only read are computed from. -/
def Mcu.readings (m : Mcu ι) : Readings :=
  ⟨m.data, m.sreg, m.cycle, m.pins, m.lowestStack, m.traced, m.stackWatches⟩

/-- What a test sees of a session: what each command returns, and what can be read after it. -/
def dialogue (sim : Simavr ι) : Mcu ι → List Command → List (Except String (Outcome × Readings))
  | _, [] => []
  | m, cmd :: cmds =>
    match cmd.exec sim m with
    | .error message => [.error message]
    | .ok m' => .ok (cmd.outcome sim m, m'.readings) :: dialogue sim m' cmds

namespace Mcu.Rel

variable {m : Mcu ι} {m' : Mcu κ} (hm : Mcu.Rel R m m')

include hm

theorem readings : m'.readings = m.readings := by
  obtain ⟨d, hR, rfl⟩ := hm
  unfold Mcu.readings Mcu.data Mcu.sreg Mcu.cycle Mcu.withAvr Core.byte Core.packSreg
  simp only [h.data hR, h.sreg hR, h.cycle hR]

theorem reg (index : UInt8) : m'.reg index = m.reg index := by
  unfold Mcu.reg Core.reg
  rw [h.data hm.avr]

theorem watch (port : Char) (bit : UInt8) :
    ResultRel (Mcu.Rel R) (m.watch sim port bit) (m'.watch sim' port bit) := by
  obtain ⟨d, hR, rfl⟩ := hm
  unfold Mcu.watch Mcu.withAvr
  rw [h.irq]
  by_cases hpin : m.pins.contains (port, bit) = true
  · rw [if_pos hpin, if_pos hpin]
    refine .ok ?_
    exact ⟨d, hR, rfl⟩
  · rw [if_neg hpin, if_neg hpin]
    split
    · refine .ok ?_
      exact ⟨d, hR, rfl⟩
    · exact .error _

theorem command (cmd : Command) :
    cmd.outcome sim' m' = cmd.outcome sim m
      ∧ ResultRel (Mcu.Rel R) (cmd.exec sim m) (cmd.exec sim' m') := by
  cases cmd with
  | op operation =>
    obtain ⟨hresult, hrel⟩ := hm.exec h operation
    exact ⟨hresult, .ok hrel⟩
  | watch port bit => exact ⟨rfl, hm.watch h port bit⟩
  | drive port bit level => exact ⟨rfl, .ok (hm.drive h port bit level)⟩

end Mcu.Rel

end

/-! ### A core that counts -/

namespace Isa

/-- The same core, with something else kept beside it. -/
def withRest (n : Nat) (c : Core Unit) : Core Nat :=
  ⟨c.pc, c.state, c.cycle, c.data, c.sreg, c.flash, c.codeend, c.frequency, n⟩

/-- The fragment on a core that counts its instructions. -/
def counting : Simavr Nat where
  avrMake := fun _ => some (atmega328p, withRest 0 (resetCore fun _ => 0))
  avrLoadFirmware := fun firmware c => { c with flash := firmware.flash }
  avrRun := fun c => ({ step atmega328p c with rest := c.rest + 1 }, [])
  avrReset := fun c => ({ c with pc := 0, state := .running, cycle := 0 }, [])
  avrIoGetirq := fun _ => false
  avrRaiseIrq := fun _ _ c => (c, [])

theorem setReg_withRest (n : Nat) (c : Core Unit) (index value : UInt8) :
    (withRest n c).setReg index value = withRest n (c.setReg index value) := by
  unfold Core.setReg
  split <;> rfl

/-- An instruction does not look at what is kept beside the core. -/
theorem step_withRest (n : Nat) (c : Core Unit) :
    step atmega328p (withRest n c) = withRest n (step atmega328p c) := by
  unfold step
  cases hs : c.state with
  | running =>
    have hs' : (withRest n c).state = .running := hs
    rw [hs']
    show execute atmega328p (withRest n c) (decode (fetch c)) = _
    cases decode (fetch c) with
    | pop r => exact congrArg (finish (c.pc + 2) 2) (setReg_withRest n (setSp c (c.sp + 1)) r _)
    | _ => rfl
  | sleeping =>
    have hs' : (withRest n c).state = .sleeping := hs
    rw [hs']
    rfl
  | _ =>
    have hs' : (withRest n c).state = _ := hs
    rw [hs']

theorem simulates_counting : Simulates simavr counting fun c d => d = withRest d.rest c where
  pc := fun h => by rw [h]; rfl
  state := fun h => by rw [h]; rfl
  cycle := fun h => by rw [h]; rfl
  data := fun h => by rw [h]; rfl
  sreg := fun h => by rw [h]; rfl
  overwrite := fun h pc state data sreg => by rw [h]; rfl
  run := fun {c d} h _ => by
    refine ⟨?_, rfl⟩
    show { step atmega328p d with rest := d.rest + 1 } = withRest (d.rest + 1) (step atmega328p c)
    rw [h, step_withRest]
    rfl
  reset := fun h => ⟨by rw [h]; rfl, rfl⟩
  irq := fun _ => rfl
  raise := fun h _ _ => ⟨h, rfl⟩

end Isa

namespace Tool

/-- The same session around another machine. -/
def Session.withMcu (m : Mcu κ) (s : Session ι) : Session κ :=
  ⟨m, s.status, s.watched, s.traced, s.stackRanges, s.painted, s.output⟩

/-- Two sessions that differ in their machines alone, and these are related. -/
def Session.Rel (R : Core ι → Core κ → Prop) (s : Session ι) (s' : Session κ) : Prop :=
  ∃ m', Mcu.Rel R s.mcu m' ∧ s' = s.withMcu m'

section

variable {sim : Simavr ι} {sim' : Simavr κ} {R : Core ι → Core κ → Prop}
  (h : Simulates sim sim' R)

include h

/-- A step prints the same, and leaves related machines. -/
theorem Session.Rel.execute {s : Session ι} {s' : Session κ} (hs : Session.Rel R s s')
    (step : Step) : ResultRel (Session.Rel R) (s.execute sim step) (s'.execute sim' step) := by
  obtain ⟨m', hm, rfl⟩ := hs
  cases step with
  | drivePin drive =>
    have hrun := (hm.drive h drive.port drive.bit drive.level).run h 4
    exact .ok ⟨_, hrun.2, rfl⟩
  | watchPin drive =>
    refine (hm.watch h drive.port drive.bit).bind fun m₁ m₁' hm₁ => .ok ?_
    exact ⟨m₁', hm₁, rfl⟩
  | traceSymbol symbol => exact .ok ⟨_, hm.trace h symbol, rfl⟩
  | watchStack region => exact .ok ⟨_, hm.watchStack region.low region.high, rfl⟩
  | paintRegion region =>
    have hpaint : Mcu.Rel R (paint region s.mcu) (paint region m') :=
      paint_rel region (fun addr _ _ hm => hm.setData h addr region.value) hm
    exact .ok ⟨_, hpaint, rfl⟩
  | freeRun cycles =>
    obtain ⟨hran, hrun⟩ := hm.run h cycles
    refine .ok ⟨_, hrun, ?_⟩
    show Session.print [.ran (m'.run sim' cycles).1] _ = _
    rw [hran]
    rfl
  | runUntil symbol =>
    obtain ⟨hresult, hrun⟩ := hm.runUntil h symbol defaultBudget
    simp only [Session.execute, Session.withMcu, hresult]
    split
    · exact .ok ⟨_, hrun, rfl⟩
    · exact .ok ⟨_, hrun, rfl⟩
  | callSymbol call =>
    have hpair : Mcu.Rel R (s.mcu.setRegPair wordArgumentRegister call.wordArgument)
        (m'.setRegPair wordArgumentRegister call.wordArgument) :=
      hm.set (h.setReg (h.setReg hm.avr _ _) _ _)
    have hargs : Mcu.Rel R
        ((s.mcu.setRegPair wordArgumentRegister call.wordArgument).setReg byteArgumentRegister
          call.byteArgument)
        ((m'.setRegPair wordArgumentRegister call.wordArgument).setReg byteArgumentRegister
          call.byteArgument) :=
      hpair.set (h.setReg hpair.avr byteArgumentRegister call.byteArgument)
    obtain ⟨hresult, hcall⟩ := hargs.call h call.symbol defaultBudget
    simp only [Session.execute, Session.withMcu, hresult, hcall.reg h, hcall.clockHz]
    split
    · refine .ok ?_
      exact ⟨_, hcall, rfl⟩
    · refine .ok ?_
      exact ⟨_, hcall, rfl⟩

theorem Session.Rel.executeAll : ∀ (steps : List Step) {s : Session ι} {s' : Session κ},
    Session.Rel R s s' → ResultRel (Session.Rel R) (s.executeAll sim steps)
      (s'.executeAll sim' steps)
  | [], _, _, hs => .ok hs
  | step :: steps, _, _, hs =>
    (hs.execute h step).bind fun _ _ hs₁ => Session.Rel.executeAll steps hs₁

/-- The report is made of what can be read back. -/
theorem Session.Rel.report {s : Session ι} {s' : Session κ} (hs : Session.Rel R s s') :
    s'.report = s.report := by
  obtain ⟨m', hm, rfl⟩ := hs
  have hpaint : paintLines m' = paintLines s.mcu :=
    paintLines_congr (congrArg Readings.data (hm.readings h))
  obtain ⟨d, -, rfl⟩ := hm
  show _ ++ _ ++ _ ++ s.painted.flatMap (paintLines (s.mcu.withAvr d)) ++ _ = _
  rw [hpaint]
  rfl

end

/-- Two cores fresh from simavr that are related as soon as a program has been put into them. -/
structure Fresh (sim : Simavr ι) (sim' : Simavr κ) (R : Core ι → Core κ → Prop)
    (made : Part × Core ι) (made' : Part × Core κ) : Prop where
  part : made'.1 = made.1
  flash : made'.2.flash = made.2.flash
  hex : ∀ flash codeend frequency,
    R { made.2 with flash := flash, codeend := codeend, frequency := frequency }
      { made'.2 with flash := flash, codeend := codeend, frequency := frequency }
  elf : ∀ firmware frequency,
    R (sim.avrLoadFirmware firmware { made.2 with frequency := frequency })
      (sim'.avrLoadFirmware firmware { made'.2 with frequency := frequency })

section

variable {sim : Simavr ι} {sim' : Simavr κ} {R : Core ι → Core κ → Prop}

/-- The constructor fails alike for both simulators, or makes related machines. -/
theorem load_rel (hmake : Option.Rel (Fresh sim sim' R) (sim.avrMake deviceName)
      (sim'.avrMake deviceName)) (files : Files) (imagePath : String) (clockHz : UInt32) :
    ResultRel (Mcu.Rel R) (Mcu.load sim files imagePath clockHz)
      (Mcu.load sim' files imagePath clockHz) := by
  unfold Mcu.load
  generalize sim.avrMake deviceName = made, sim'.avrMake deviceName = made' at hmake
  cases hmake with
  | none => exact .error _
  | @some made made' hfresh =>
    obtain ⟨part, c⟩ := made
    obtain ⟨part', d⟩ := made'
    obtain rfl : part' = part := hfresh.part
    have hflash : d.flash = c.flash := hfresh.flash
    by_cases hext : ".hex" = (splitExtension imagePath).2
    · simp only [if_pos hext, hflash]
      cases files.readMapFile ((splitExtension imagePath).1 ++ ".map") with
      | error message => exact .error _
      | ok symbols =>
        simp only
        split
        · exact .error _
        · cases loadChunks imagePath part'.flashend (files.readIhexChunks imagePath) c.flash 0 with
          | error message => exact .error _
          | ok loaded => exact .ok ⟨_, hfresh.hex loaded.1 loaded.2 clockHz, rfl⟩
    · simp only [if_neg hext]
      cases files.elfReadFirmware imagePath with
      | none => exact .error _
      | some firmware => exact .ok ⟨_, hfresh.elf _ clockHz, rfl⟩

/--
**The tool cannot tell two such simulators apart either**: on every command line it prints the same
lines and exits with the same code, or fails with the same message.
-/
theorem run_eq_of_simulates (h : Simulates sim sim' R)
    (hmake : Option.Rel (Fresh sim sim' R) (sim.avrMake deviceName) (sim'.avrMake deviceName))
    (files : Files) (argv : List String) :
    (run sim' files argv).map (fun r => (r.code, r.output))
      = (run sim files argv).map fun r => (r.code, r.output) := by
  refine ResultRel.map_eq (S := fun r r' => (r'.code, r'.output) = (r.code, r.output)) ?_
    fun _ _ heq => heq
  unfold run
  split
  · exact .ok rfl
  · cases parseSteps (argv.drop firstStepArgument) with
    | error message => exact .error message
    | ok parsed =>
      cases parsed with
      | none => exact .ok rfl
      | some steps =>
        simp only [bind, Except.bind]
        split
        · exact .ok rfl
        · refine (load_rel hmake files _ _).bind fun m m' hm => ?_
          have hundefined : firstUndefined m' steps = firstUndefined m steps := by
            unfold firstUndefined Mcu.has
            rw [hm.prog]
          rw [hundefined]
          cases firstUndefined m steps with
          | some symbol => exact .ok rfl
          | none =>
            have hstart : Session.Rel R (Session.start m) (Session.start m') := ⟨m', hm, rfl⟩
            refine (hstart.executeAll h steps).bind fun s s' hs => .ok ?_
            rw [hs.report h]
            obtain ⟨m₁, -, rfl⟩ := hs
            rfl

end

/-- A command line that traces and runs the two functions that take turns. -/
theorem run_eq_of_simulates_counting :
    (run Isa.counting Isa.turnsFiles ["avrsim", "app.elf", "--trace", "f", "--run", "9"]).map
        (fun r => (r.code, r.output))
      = (run Isa.simavr Isa.turnsFiles ["avrsim", "app.elf", "--trace", "f", "--run", "9"]).map
        fun r => (r.code, r.output) := by
  refine run_eq_of_simulates Isa.simulates_counting ?_ _ _
  exact .some ⟨rfl, rfl, fun _ _ _ => rfl, fun _ _ => rfl⟩

end Tool

end Avrsim
