import Mathlib.Data.List.Sort
import Mathlib.Order.Defs.LinearOrder
import Avrsim.Mcu

/-!
# The loader

The constructor of `Mcu`. Two image formats are accepted, told apart by the extension: avra's
Intel hex with the map file beside it, and an ELF. What the readers find in the files is the
parameter `Files`; a failed load carries the message `fail` prints before it ends the process.
-/

namespace Avrsim

/-- One contiguous run of an Intel hex file. `data` has `size` bytes. -/
structure IhexChunk where
  baseaddr : UInt32
  size : UInt32
  data : Nat → UInt8

/-- What the readers return for a path. -/
structure Files where
  /-- `readMapFile`: the labels, or the message it fails with. -/
  readMapFile : String → Except String SymbolMap
  /-- `read_ihex_chunks`: no chunks when the file cannot be read. -/
  readIhexChunks : String → List IhexChunk
  /-- `elf_read_firmware`. -/
  elfReadFirmware : String → Option Firmware

/-- The device every program is built for. -/
def deviceName : String := "atmega328p"

/-- A path cut at its last dot: the stem, and the dot with what follows it. -/
def splitExtension (path : String) : String × String :=
  match path.toList.reverse.span (fun ch => ch != '.') with
  | (_, []) => (path, "")
  | (tail, dot :: stem) => (String.ofList stem.reverse, String.ofList (dot :: tail.reverse))

/-- Copy `size` bytes of `src` to `dst`. -/
def memcpy (mem : Nat → UInt8) (dst : Nat) (src : Nat → UInt8) (size : Nat) : Nat → UInt8 :=
  fun addr => if dst ≤ addr ∧ addr < dst + size then src (addr - dst) else mem addr

/-- Copy the chunks into flash, and find the end of the highest one. -/
def loadChunks (imagePath : String) (flashend : UInt32) :
    List IhexChunk → (Nat → UInt8) → UInt32 → Except String ((Nat → UInt8) × UInt32)
  | [], flash, codeEnd => .ok (flash, codeEnd)
  | chunk :: chunks, flash, codeEnd =>
    let «end» := chunk.baseaddr + chunk.size
    let flashSize := flashend + 1
    if flashSize < «end» then .error ("program does not fit in flash: " ++ imagePath)
    else
      loadChunks imagePath flashend chunks
        (memcpy flash chunk.baseaddr.toNat chunk.data chunk.size.toNat)
        (if «end» > codeEnd then «end» else codeEnd)

/-- `std::unique`: one of each run of equal elements. -/
def unique : List UInt32 → List UInt32
  | [] => []
  | [a] => [a]
  | a :: b :: rest => if a = b then unique (b :: rest) else a :: unique (b :: rest)

/-- The symbol addresses the constructor keeps, sorted and without repetitions. -/
def sortedSymbols (addrs : List UInt32) : List UInt32 :=
  unique (addrs.insertionSort (fun a b => a ≤ b))

/-- The first even byte past the end of the program. -/
def trapOf (codeEnd : UInt32) : UInt32 :=
  let alignment := bytesPerWord - 1
  (codeEnd + 1) &&& ~~~alignment

/-- The program a hex file and its map make. -/
def Program.ofHex (part : Part) (symbols : SymbolMap) (codeEnd : UInt32) : Program where
  part := part
  firmware := ⟨0, 0, fun _ => 0, [], 0⟩
  symbols := symbols
  flashSymbols := sortedSymbols (symbols.toList.map fun entry => entry.2)
  codeEnd := codeEnd
  trap := trapOf codeEnd

/-- The program an ELF makes. Symbols above flash are data, and bound no function. -/
def Program.ofElf (part : Part) (firmware : Firmware) : Program where
  part := part
  firmware := firmware
  symbols := ∅
  flashSymbols :=
    sortedSymbols ((firmware.symbol.map AvrSymbol.addr).filter fun addr => !(part.flashend < addr))
  codeEnd := firmware.flashbase + firmware.flashsize
  trap := trapOf (firmware.flashbase + firmware.flashsize)

/-- A machine with a program in it and nothing recorded yet. -/
def Mcu.ofProgram {ι : Type} (prog : Program) (clockHz : UInt32) (avr : Core ι) : Mcu ι where
  prog := prog
  clockHz := clockHz
  avr := avr
  pins := ∅
  hooks := []
  lowestStack := noStackMark
  traced := ∅
  stackWatches := []

/-- Load a program and reset the machine. -/
def Mcu.load {ι : Type} (sim : Simavr ι) (files : Files) (imagePath : String) (clockHz : UInt32) :
    Except String (Mcu ι) :=
  let (stem, extension) := splitExtension imagePath
  match sim.avrMake deviceName with
  | none => .error ("unknown device " ++ deviceName)
  | some (part, avr) =>
    let avr := { avr with frequency := clockHz }
    if ".hex" = extension then
      match files.readMapFile (stem ++ ".map") with
      | .error message => .error message
      | .ok symbols =>
        let chunks := files.readIhexChunks imagePath
        if chunks.isEmpty then .error ("cannot read hex file " ++ imagePath)
        else
          match loadChunks imagePath part.flashend chunks avr.flash 0 with
          | .error message => .error message
          | .ok (flash, codeEnd) =>
            .ok (Mcu.ofProgram (Program.ofHex part symbols codeEnd) clockHz
              { avr with flash := flash, codeend := codeEnd })
    else
      match files.elfReadFirmware imagePath with
      | none => .error ("cannot read ELF file " ++ imagePath)
      | some firmware =>
        let firmware := { firmware with frequency := clockHz }
        .ok (Mcu.ofProgram (Program.ofElf part firmware) clockHz
          (sim.avrLoadFirmware firmware avr))

end Avrsim
