import Mathlib.Logic.Function.Basic

/-!
# The simulated core

What the harness sees of simavr. The core itself (`avr_run`, `avr_reset`, the interrupt lines)
is not part of this repository: it is the parameter `Simavr` of the whole development, and every
result holds for any such core.

* `Part` — the fields of `avr_t` that the device fixes
* `Core` — the fields of `avr_t` that change while a program runs
* `Simavr` — the functions of simavr that the harness calls
-/

namespace Avrsim

/-- The cpu states of simavr. -/
inductive CpuState where
  | limbo
  | stopped
  | running
  | sleeping
  | step
  | stepDone
  | done
  | crashed
deriving DecidableEq, Repr

/-- What the device fixes: top of RAM, top of flash, bytes of a return address. -/
structure Part where
  ramend : UInt16
  flashend : UInt32
  addressSize : UInt8
deriving DecidableEq, Repr

/-- Data space address of SPL. -/
def splAddress : UInt16 := 0x5D

/-- Data space address of SPH, one byte above SPL. -/
def sphAddress : UInt16 := 0x5E

/-- Data space address of SREG. -/
def sregAddress : UInt16 := 0x5F

/--
The machine. `flash` is indexed by exact byte addresses, so a write past the end of flash is
visible as one. `rest` is whatever else the core keeps: timers, pending interrupts, pins.
-/
structure Core (ι : Type) where
  pc : UInt32
  state : CpuState
  cycle : UInt64
  data : UInt16 → UInt8
  sreg : Fin 8 → UInt8
  flash : Nat → UInt8
  codeend : UInt32
  frequency : UInt32
  rest : ι

/-- One sample: what the samplers read after an instruction. -/
structure Sample where
  pc : UInt32
  cycle : UInt64
  sp : UInt16
deriving DecidableEq, Repr

namespace Core

variable {ι : Type}

/-- The two states in which a core makes progress. -/
def live (c : Core ι) : Bool :=
  c.state == .running || c.state == .sleeping

/-- SPH:SPL. -/
def sp (c : Core ι) : UInt16 :=
  (c.data splAddress).toUInt16 ||| ((c.data sphAddress).toUInt16 <<< 8)

def sample (c : Core ι) : Sample := ⟨c.pc, c.cycle, c.sp⟩

/-- Write one byte of the data space. -/
def write (c : Core ι) (addr : UInt16) (value : UInt8) : Core ι :=
  { c with data := Function.update c.data addr value }

/-- `avr->state = cpu_Running`. -/
def wake (c : Core ι) : Core ι := { c with state := .running }

@[simp] theorem sample_pc (c : Core ι) : c.sample.pc = c.pc := rfl
@[simp] theorem sample_cycle (c : Core ι) : c.sample.cycle = c.cycle := rfl
@[simp] theorem sample_sp (c : Core ι) : c.sample.sp = c.sp := rfl

@[simp] theorem wake_pc (c : Core ι) : c.wake.pc = c.pc := rfl
@[simp] theorem wake_cycle (c : Core ι) : c.wake.cycle = c.cycle := rfl
@[simp] theorem wake_data (c : Core ι) : c.wake.data = c.data := rfl
@[simp] theorem wake_live (c : Core ι) : c.wake.live = true := rfl

@[simp] theorem write_data_self (c : Core ι) (addr : UInt16) (value : UInt8) :
    (c.write addr value).data addr = value := by
  simp [write]

theorem write_data_of_ne (c : Core ι) {addr addr' : UInt16} (h : addr' ≠ addr) (value : UInt8) :
    (c.write addr value).data addr' = c.data addr' := by
  simp [write, h]

theorem wake_eq_self {c : Core ι} (h : c.state = .running) : c.wake = c := by
  cases c
  cases h
  rfl

end Core

/-- A pin: port letter and bit number. -/
abbrev PinKey := Char × UInt8

/-- A pin notification: which pin, the cycle counter at that moment, and the value raised. -/
structure Notice where
  pin : PinKey
  cycle : UInt64
  value : UInt32
deriving DecidableEq, Repr

/-- One entry of an ELF symbol table. -/
structure AvrSymbol where
  symbol : String
  addr : UInt32
deriving DecidableEq, Repr

/-- What `elf_read_firmware` fills in. -/
structure Firmware where
  flashbase : UInt32
  flashsize : UInt32
  flash : Nat → UInt8
  symbol : List AvrSymbol
  frequency : UInt32

/-- simavr. A function that may raise pin notifications returns them, oldest first. -/
structure Simavr (ι : Type) where
  /-- `avr_make_mcu_by_name` followed by `avr_init`. -/
  avrMake : String → Option (Part × Core ι)
  avrLoadFirmware : Firmware → Core ι → Core ι
  avrRun : Core ι → Core ι × List Notice
  avrReset : Core ι → Core ι × List Notice
  /-- Whether `avr_io_getirq` finds an interrupt line for the pin. -/
  avrIoGetirq : PinKey → Bool
  avrRaiseIrq : PinKey → UInt32 → Core ι → Core ι × List Notice

/-- The core after one `avr_run`. -/
def Simavr.next {ι : Type} (sim : Simavr ι) (c : Core ι) : Core ι := (sim.avrRun c).1

end Avrsim
