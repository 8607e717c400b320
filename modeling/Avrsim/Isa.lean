import Avrsim.Loader

/-!
# A few AVR instructions

A core that runs a fragment of the AVR instruction set, encoded as the device encodes it:
`nop`, `push`, `pop`, `ret`, `rjmp` and `sleep`. It is one of the cores the results about an
arbitrary `Simavr` apply to, and the one their concrete runs are made on.

Cycle counts are those of an ATmega328P. There are no peripherals, so nothing ever wakes the
core or raises a pin.
-/

namespace Avrsim.Isa

variable {ι : Type}

/-- The instructions of the fragment. `offset` is in bytes, relative to the next instruction. -/
inductive Instr where
  | nop
  | push (r : UInt8)
  | pop (r : UInt8)
  | ret
  | rjmp (offset : UInt32)
  | sleep
  | illegal
deriving DecidableEq, Repr

/-- The twelve-bit signed word offset of `rjmp`, in bytes. -/
def rjmpOffset (w : UInt16) : UInt32 :=
  let k := (w &&& 0xFFF).toUInt32
  if k < 0x800 then 2 * k else 2 * k - 0x2000

def decode (w : UInt16) : Instr :=
  if w = 0x0000 then .nop
  else if w = 0x9508 then .ret
  else if w = 0x9588 then .sleep
  else if w &&& 0xFE0F = 0x920F then .push ((w >>> 4) &&& 0x1F).toUInt8
  else if w &&& 0xFE0F = 0x900F then .pop ((w >>> 4) &&& 0x1F).toUInt8
  else if w &&& 0xF000 = 0xC000 then .rjmp (rjmpOffset w)
  else .illegal

/-- The instruction word at the program counter, low byte first. -/
def fetch (c : Core ι) : UInt16 :=
  (c.flash c.pc.toNat).toUInt16 ||| ((c.flash (c.pc.toNat + 1)).toUInt16 <<< 8)

/-- Write SPH:SPL. -/
def setSp (c : Core ι) (sp : UInt16) : Core ι :=
  (c.write splAddress (sp &&& 0xFF).toUInt8).write sphAddress (sp >>> 8).toUInt8

/-- The address on top of the stack: a word address, most significant byte first, in bytes. -/
def popAddress (part : Part) (c : Core ι) : UInt32 :=
  bytesPerWord * (List.range part.addressSize.toNat).foldl
    (fun word i => 256 * word + (c.data (c.sp + 1 + UInt16.ofNat i)).toUInt32) 0

/-- The core after an instruction that takes `cycles` and goes on at `pc`. -/
def finish (pc : UInt32) (cycles : UInt64) (c : Core ι) : Core ι :=
  { c with pc := pc, cycle := c.cycle + cycles }

def execute (part : Part) (c : Core ι) : Instr → Core ι
  | .nop => finish (c.pc + 2) 1 c
  | .push r => finish (c.pc + 2) 2 (setSp (c.write c.sp (c.reg r)) (c.sp - 1))
  | .pop r => finish (c.pc + 2) 2 ((setSp c (c.sp + 1)).setReg r (c.data (c.sp + 1)))
  | .ret => finish (popAddress part c) 4 (setSp c (c.sp + part.addressSize.toUInt16))
  | .rjmp offset => finish (c.pc + 2 + offset) 2 c
  | .sleep => finish (c.pc + 2) 1 { c with state := .sleeping }
  | .illegal => finish c.pc 1 { c with state := .crashed }

/-- One `avr_run`: an instruction, a cycle of sleep, or nothing on a halted core. -/
def step (part : Part) (c : Core ι) : Core ι :=
  match c.state with
  | .running => execute part c (decode (fetch c))
  | .sleeping => finish c.pc 1 c
  | _ => c

/-- The device of every program here. -/
def atmega328p : Part := ⟨0x08FF, 0x7FFF, 2⟩

/-- A core that has just been reset. -/
def resetCore (flash : Nat → UInt8) : Core Unit where
  pc := 0
  state := .running
  cycle := 0
  data := fun _ => 0
  sreg := fun _ => 0
  flash := flash
  codeend := 0
  frequency := 0
  rest := ()

/-- The fragment as a `Simavr`. -/
def simavr : Simavr Unit where
  avrMake := fun _ => some (atmega328p, resetCore fun _ => 0)
  avrLoadFirmware := fun firmware c => { c with flash := firmware.flash }
  avrRun := fun c => (step atmega328p c, [])
  avrReset := fun c => ({ c with pc := 0, state := .running, cycle := 0 }, [])
  avrIoGetirq := fun _ => false
  avrRaiseIrq := fun _ _ c => (c, [])

/-- Every instruction of a live core takes time. -/
theorem cycle_ne_next {c : Core Unit} (hlive : c.live = true) :
    (simavr.next c).cycle ≠ c.cycle := by
  have hadd : ∀ n : UInt64, n ≠ 0 → c.cycle + n ≠ c.cycle := fun n hn h => hn (by grind)
  show (step atmega328p c).cycle ≠ c.cycle
  unfold step
  cases hs : c.state with
  | running =>
    cases decode (fetch c) with
    | pop r =>
      show ((setSp c (c.sp + 1)).setReg r (c.data (c.sp + 1))).cycle + 2 ≠ c.cycle
      unfold Core.setReg
      split <;> exact hadd 2 (by decide)
    | ret => exact hadd 4 (by decide)
    | push r => exact hadd 2 (by decide)
    | rjmp offset => exact hadd 2 (by decide)
    | nop => exact hadd 1 (by decide)
    | sleep => exact hadd 1 (by decide)
    | illegal => exact hadd 1 (by decide)
  | sleeping => exact hadd 1 (by decide)
  | limbo | stopped | step | stepDone | done | crashed => simp [Core.live, hs] at hlive

/-- The same core, except that it stops for good rather than wrap its cycle counter. -/
def steady : Simavr Unit where
  avrMake := simavr.avrMake
  avrLoadFirmware := simavr.avrLoadFirmware
  avrRun := fun c => if c.cycle ≤ (simavr.next c).cycle then simavr.avrRun c else (c, [])
  avrReset := simavr.avrReset
  avrIoGetirq := simavr.avrIoGetirq
  avrRaiseIrq := simavr.avrRaiseIrq

theorem cycle_le_next_steady (c : Core Unit) : c.cycle ≤ (steady.next c).cycle := by
  show c.cycle ≤ (if c.cycle ≤ (simavr.next c).cycle then simavr.avrRun c else (c, [])).1.cycle
  split
  · next h => exact h
  · exact UInt64.le_refl c.cycle

/-- The firmware made of these instruction words at the bottom of flash. -/
def firmware (words : List UInt16) (symbols : List AvrSymbol) : Firmware where
  flashbase := 0
  flashsize := 2 * UInt32.ofNat words.length
  flash := fun addr =>
    let word := words.getD (addr / 2) 0
    if addr % 2 = 0 then (word &&& 0xFF).toUInt8 else (word >>> 8).toUInt8
  symbol := symbols
  frequency := 16000000

/-- A machine with this firmware loaded. -/
def boot (words : List UInt16) (symbols : List AvrSymbol) : Mcu Unit :=
  Mcu.ofProgram (Program.ofElf atmega328p (firmware words symbols)) 16000000
    { resetCore (firmware words symbols).flash with frequency := 16000000 }

/-- Two functions of two instructions that take turns: `f` jumps back to `main`. -/
def turns : Mcu Unit := boot [0x0000, 0x0000, 0x0000, 0xCFFC] [⟨"main", 0⟩, ⟨"f", 4⟩]

/-- The files `turns` is loaded from. -/
def turnsFiles : Files where
  readMapFile := fun path => .error ("cannot read map file " ++ path)
  readIhexChunks := fun _ => []
  elfReadFirmware := fun _ =>
    some (firmware [0x0000, 0x0000, 0x0000, 0xCFFC] [⟨"main", 0⟩, ⟨"f", 4⟩])

/-- `boot` is what the constructor makes of the firmware. -/
theorem load_eq_boot (files : Files) (words : List UInt16) (symbols : List AvrSymbol)
    (h : files.elfReadFirmware "app.elf" = some (firmware words symbols)) :
    Mcu.load simavr files "app.elf" 16000000 = .ok (boot words symbols) := by
  have hext : splitExtension "app.elf" = ("app", ".elf") := by decide
  simp only [Mcu.load, hext]
  simp only [simavr, h]
  rfl

end Avrsim.Isa
