import Mathlib.Data.List.Basic
import Avrsim.Trace
import Avrsim.StackWatch
import Avrsim.Pin

/-!
# The harness

`Mcu` of `mcu.cpp`, one definition for each member function. A function that changes the
machine returns the new one, after its result if it has one.

The three stepping loops of the source are bounded by an instruction count as well as by the
cycle counter. That bound is what their recursion runs on: `left` is `cycleBudget - executed`.
-/

namespace Avrsim

instance : Ord PinKey := lexOrd

/-- Label to byte address. -/
abbrev SymbolMap := Std.TreeMap String UInt32

/-- Pin logs, keyed by (port, bit). -/
abbrev PinMap := Std.TreeMap PinKey PinLog

/-- Returned by `address` for a symbol the program does not define. -/
def noAddress : UInt32 := 0xFFFFFFFF

/-- Returned by `lowestStackPtr` when nothing has run yet. -/
def noStackMark : UInt16 := 0xFFFF

/-- General-purpose registers, at the bottom of the data space. -/
def registerCount : UInt8 := 32

/-- Bytes per word of program memory. -/
def bytesPerWord : UInt32 := 2

/-! ## Registers and memory -/

namespace Core

variable {ι : Type}

def reg (c : Core ι) (index : UInt8) : UInt8 :=
  if index < registerCount then c.data index.toUInt16 else 0

def setReg (c : Core ι) (index value : UInt8) : Core ι :=
  if index < registerCount then c.write index.toUInt16 value else c

/-- A register pair as one value, low byte first. `low + 1` wraps, as the narrowing call does. -/
def regPair (c : Core ι) (low : UInt8) : UInt16 :=
  (c.reg low).toUInt16 ||| ((c.reg (low + 1)).toUInt16 <<< 8)

def setRegPair (c : Core ι) (low : UInt8) (value : UInt16) : Core ι :=
  let lowByte := (value &&& 0xFF).toUInt8
  let highByte := (value >>> 8).toUInt8
  (c.setReg low lowByte).setReg (low + 1) highByte

/-- `Mcu::data`: one byte of the data space, or 0 past the end of RAM. -/
def byte (c : Core ι) (ramend addr : UInt16) : UInt8 := if addr ≤ ramend then c.data addr else 0

/-- `Mcu::setData`. -/
def setByte (c : Core ι) (ramend addr : UInt16) (value : UInt8) : Core ι :=
  if addr ≤ ramend then c.write addr value else c

/-- Unpack SREG into the core's flags, and keep the byte of the data space in step. -/
def setSreg (c : Core ι) (value : UInt8) : Core ι :=
  { c.write sregAddress value with
    sreg := fun bit => (value >>> UInt8.ofNat bit.val) &&& 1 }

/-- `Mcu::sreg`: the core's flags, packed the way the device packs them. -/
def packSreg (c : Core ι) : UInt8 :=
  (List.finRange 8).foldl
    (fun packed bit =>
      let mask := 1 <<< UInt8.ofNat bit.val
      if 0 != c.sreg bit then packed ||| mask else packed)
    0

end Core

/-- Bit 7 of SREG: the global interrupt enable. -/
def globalInterruptBit : Fin 8 := 7

/--
Push a return address the way `rcall` would: least significant byte first, the stack growing
downwards. Returns the data space and the stack pointer.
-/
def pushReturn (returnWord : UInt32) (addressSize : UInt8) (data : UInt16 → UInt8)
    (stack : UInt16) : (UInt16 → UInt8) × UInt16 :=
  (List.range addressSize.toNat).foldl
    (fun st byte =>
      let shift := 8 * UInt8.ofNat byte
      let part := ((returnWord >>> shift.toUInt32) &&& 0xFF).toUInt8
      (Function.update st.1 st.2 part, st.2 - 1))
    (data, stack)

/-! ## The loaded program -/

/-- What the constructor works out about the image. No other function writes these. -/
structure Program where
  part : Part
  firmware : Firmware
  symbols : SymbolMap
  flashSymbols : List UInt32
  codeEnd : UInt32
  trap : UInt32

namespace Program

/-- Byte address of a global symbol, or `noAddress`. -/
def address (prog : Program) (symbol : String) : UInt32 :=
  if !prog.symbols.isEmpty then (prog.symbols[symbol]?).getD noAddress
  else
    match prog.firmware.symbol.find? (fun entry => symbol == entry.symbol) with
    | some entry => entry.addr
    | none => noAddress

def has (prog : Program) (symbol : String) : Bool := noAddress != prog.address symbol

/-- One past the last byte of the function at `begin`, derived from the next symbol. -/
def extentEnd (prog : Program) (begin : UInt32) : UInt32 :=
  -- `upper_bound`: the symbols are sorted, so this is the smallest one past `begin`
  match prog.flashSymbols.find? (fun addr => begin < addr) with
  | some next => next
  | none => if prog.codeEnd == 0 then prog.part.flashend + 1 else prog.codeEnd

/-- What `call` does before its loop: a fresh stack with the trap address on it, and the jump. -/
def enterCall {ι : Type} (prog : Program) (entry : UInt32) (c : Core ι) : Core ι :=
  let pushed := pushReturn (prog.trap / bytesPerWord) prog.part.addressSize c.data
    prog.part.ramend
  let stack := pushed.2
  let c := { c with data := pushed.1 }.write splAddress (stack &&& 0xFF).toUInt8
  let c := c.write sphAddress (stack >>> 8).toUInt8
  { c with pc := entry, state := .running }

end Program

/-! ## Traced functions -/

/-- Where one traced function begins and ends in flash, and its log. -/
structure Traced where
  begin : UInt32
  «end» : UInt32
  inside : Bool
  log : Trace
deriving DecidableEq, Repr

namespace Traced

/-- Whether a program counter is inside the function. -/
def contains (item : Traced) (pc : UInt32) : Bool := item.begin ≤ pc && pc < item.end

/-- The entry `trace` makes, seeded from where the program counter is now. -/
def new (prog : Program) (symbol : String) (pc : UInt32) : Traced :=
  let begin := prog.address symbol
  -- a symbol that is not defined gets an extent that contains nothing
  let «end» := if noAddress == begin then 0 else prog.extentEnd begin
  let item : Traced := ⟨if noAddress == begin then 1 else begin, «end», false, Trace.new⟩
  { item with inside := item.contains pc }

/-- One pass of the loop in `sampleTraces`. -/
def sample (pc : UInt32) (cycle : UInt64) (item : Traced) : Traced :=
  let inside := item.contains pc
  let log :=
    if inside && !item.inside then item.log.enter cycle
    else if !inside && item.inside then item.log.leave cycle
    else item.log
  { item with inside := inside, log := log }

@[simp] theorem sample_begin (pc : UInt32) (cycle : UInt64) (item : Traced) :
    (item.sample pc cycle).begin = item.begin := rfl

@[simp] theorem sample_end (pc : UInt32) (cycle : UInt64) (item : Traced) :
    (item.sample pc cycle).end = item.end := rfl

@[simp] theorem sample_inside (pc : UInt32) (cycle : UInt64) (item : Traced) :
    (item.sample pc cycle).inside = item.contains pc := rfl

@[simp] theorem sample_contains (pc pc' : UInt32) (cycle : UInt64) (item : Traced) :
    (item.sample pc cycle).contains pc' = item.contains pc' := rfl

end Traced

/-! ## The machine -/

/-- A hook on the interrupt line of `irq` that records into the log of `log`. -/
structure PinHook where
  irq : PinKey
  log : PinKey
deriving DecidableEq, Repr

/-- `Mcu` and its `Impl`. -/
structure Mcu (ι : Type) where
  prog : Program
  clockHz : UInt32
  avr : Core ι
  pins : PinMap
  hooks : List PinHook
  lowestStack : UInt16
  traced : Std.TreeMap String Traced
  stackWatches : List StackWatch

/-- Result of running one subroutine to completion. -/
structure Call where
  returned : Bool
  cycles : UInt64
deriving DecidableEq, Repr

/-- `onPinChanged`, called once for every hook on the line of the notification. -/
def onPinChanged (hooks : List PinHook) (pins : PinMap) (notice : Notice) : PinMap :=
  hooks.foldl
    (fun pins hook =>
      if hook.irq = notice.pin then
        pins.modify hook.log (PinLog.record notice.cycle (0 != notice.value))
      else pins)
    pins

namespace Mcu

variable {ι : Type}

/-- Take over what a function of simavr did to the core, notifications included. -/
def absorb (m : Mcu ι) (result : Core ι × List Notice) : Mcu ι :=
  { m with avr := result.1, pins := result.2.foldl (onPinChanged m.hooks) m.pins }

/-! ### Symbols, registers and memory -/

def address (m : Mcu ι) (symbol : String) : UInt32 := m.prog.address symbol

def has (m : Mcu ι) (symbol : String) : Bool := m.prog.has symbol

def reg (m : Mcu ι) (index : UInt8) : UInt8 := m.avr.reg index

def setReg (index value : UInt8) (m : Mcu ι) : Mcu ι := { m with avr := m.avr.setReg index value }

def regPair (m : Mcu ι) (low : UInt8) : UInt16 := m.avr.regPair low

def setRegPair (low : UInt8) (value : UInt16) (m : Mcu ι) : Mcu ι :=
  { m with avr := m.avr.setRegPair low value }

def data (m : Mcu ι) (addr : UInt16) : UInt8 := m.avr.byte m.prog.part.ramend addr

def setData (addr : UInt16) (value : UInt8) (m : Mcu ι) : Mcu ι :=
  { m with avr := m.avr.setByte m.prog.part.ramend addr value }

/-- The loop of `untouchedBytes`, from `addr` with `left` addresses to go. -/
def countUntouched (m : Mcu ι) (paintByte : UInt8) : Nat → UInt32 → UInt16 → UInt16
  | 0, _, untouched => untouched
  | left + 1, addr, untouched =>
    if paintByte ≠ m.data addr.toUInt16 then untouched
    else countUntouched m paintByte left (addr + 1) (untouched + 1)

/-- How many bytes at the bottom of a range still hold what it was painted with. -/
def untouchedBytes (low high : UInt16) (paintByte : UInt8) (m : Mcu ι) : UInt16 :=
  if high < low then 0
  else m.countUntouched paintByte (high.toNat + 1 - low.toNat) low.toUInt32 0

def sreg (m : Mcu ι) : UInt8 := m.avr.packSreg

def setSreg (value : UInt8) (m : Mcu ι) : Mcu ι := { m with avr := m.avr.setSreg value }

def interruptsEnabled (m : Mcu ι) : Bool := 0 != m.avr.sreg globalInterruptBit

def stackPtr (m : Mcu ι) : UInt16 :=
  (m.data splAddress).toUInt16 ||| ((m.data sphAddress).toUInt16 <<< 8)

def lowestStackPtr (m : Mcu ι) : UInt16 := m.lowestStack

def resetStackWatermark (m : Mcu ι) : Mcu ι := { m with lowestStack := noStackMark }

def cycle (m : Mcu ι) : UInt64 := m.avr.cycle

/-! ### Stepping -/

def sampleTraces (m : Mcu ι) : Mcu ι :=
  { m with traced := m.traced.map fun _ item => item.sample m.avr.pc m.avr.cycle }

def sampleStack (m : Mcu ι) : Mcu ι :=
  let ptr := m.avr.sp
  { m with
    lowestStack := if ptr < m.lowestStack then ptr else m.lowestStack
    stackWatches := m.stackWatches.map (StackWatch.sample ptr) }

variable (sim : Simavr ι)

/-- The body the three loops share: one instruction, then both samplers. -/
def tick (m : Mcu ι) : Mcu ι := (m.absorb (sim.avrRun m.avr)).sampleStack.sampleTraces

/-- The loop of `call` and `runUntil`, which differ in the address they stop at. -/
def stepUntil (stop : UInt32) (cycleBudget start : UInt64) : Nat → Mcu ι → Call × Mcu ι
  -- `executed` has got to `cycleBudget`: the arrival is not tested any more
  | 0, m => (⟨false, m.cycle - start⟩, m)
  | left + 1, m =>
    if cycleBudget > m.cycle - start then
      if stop = m.avr.pc then (⟨true, m.cycle - start⟩, m)
      else if !m.avr.live then (⟨false, m.cycle - start⟩, m)
      else stepUntil stop cycleBudget start left (m.tick sim)
    else (⟨false, m.cycle - start⟩, m)

/-- The loop of `run`. -/
def stepFor (cycles start : UInt64) : Nat → Mcu ι → Mcu ι
  | 0, m => m
  | left + 1, m =>
    if cycles > m.cycle - start then
      if !m.avr.live then m
      else stepFor cycles start left (m.tick sim)
    else m

/-- Call one subroutine and run until it returns. -/
def call (symbol : String) (cycleBudget : UInt64) (m : Mcu ι) : Call × Mcu ι :=
  let entry := m.address symbol
  if noAddress = entry then (⟨false, 0⟩, m)
  else
    let m := { m with avr := m.prog.enterCall entry m.avr }
    stepUntil sim m.prog.trap cycleBudget m.cycle cycleBudget.toNat m

/-- Let the loaded program run for a while. -/
def run (cycles : UInt64) (m : Mcu ι) : UInt64 × Mcu ι :=
  let m := { m with avr := m.avr.wake }
  let start := m.cycle
  let m := stepFor sim cycles start cycles.toNat m
  (m.cycle - start, m)

/-- Run until control first reaches a symbol. -/
def runUntil (symbol : String) (cycleBudget : UInt64) (m : Mcu ι) : Call × Mcu ι :=
  let target := m.address symbol
  if noAddress = target then (⟨false, 0⟩, m)
  else
    let m := { m with avr := m.avr.wake }
    stepUntil sim target cycleBudget m.cycle cycleBudget.toNat m

/-- Reset the core and forget the pin logs. The stack watermark deliberately survives. -/
def reset (m : Mcu ι) : Mcu ι :=
  let m := m.absorb (sim.avrReset m.avr)
  { m with pins := m.pins.map fun _ log => log.clear }

/-! ### Watching -/

/-- Start recording the transitions of one pin. `fail` ends the process. -/
def watch (port : Char) (bit : UInt8) (m : Mcu ι) : Except String (Mcu ι) :=
  if m.pins.contains (port, bit) then .ok m
  else if sim.avrIoGetirq (port, bit) then
    .ok { m with
      pins := m.pins.insert (port, bit) PinLog.new
      hooks := m.hooks ++ [⟨(port, bit), (port, bit)⟩] }
  else .error ("no such pin P" ++ port.toString ++ toString bit.toNat)

/-- Drive a pin from outside. A pin without an interrupt line is ignored. -/
def drive (port : Char) (bit : UInt8) (level : Bool) (m : Mcu ι) : Mcu ι :=
  if sim.avrIoGetirq (port, bit) then
    m.absorb (sim.avrRaiseIrq (port, bit) (if level then 1 else 0) m.avr)
  else m

/-- Start recording the visits to one function, unless they are being recorded already. -/
def trace (symbol : String) (m : Mcu ι) : Mcu ι :=
  if m.traced.contains symbol then m
  else { m with traced := m.traced.insert symbol (Traced.new m.prog symbol m.avr.pc) }

/-- `Trace::clear` on the log that `trace` handed out for a symbol. -/
def clearTrace (symbol : String) (m : Mcu ι) : Mcu ι :=
  { m with traced := m.traced.modify symbol fun item => { item with log := item.log.clear } }

/-- Start recording how deep the stack pointer goes inside one range. -/
def watchStack (low high : UInt16) (m : Mcu ι) : Mcu ι :=
  if m.stackWatches.any (fun w => low == w.low && high == w.high) then m
  else { m with stackWatches := m.stackWatches ++ [StackWatch.new low high] }

/-- `StackWatch::clear` on the watch that `watchStack` handed out for a range. -/
def clearStack (low high : UInt16) (m : Mcu ι) : Mcu ι :=
  { m with stackWatches := m.stackWatches.map fun w => if w.range = (low, high) then w.clear else w }

end Mcu

end Avrsim
