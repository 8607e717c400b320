import Mathlib.Data.List.Forall2
import Avrsim.MapFile
import Avrsim.Properties.Extents
import Avrsim.Properties.HexFlash
import Avrsim.Properties.Interchange

/-!
# Image formats

Nothing above the loader can tell a hex from an ELF. The two keep their symbols in different
places, one in words and one in bytes, and find the end of the code in different ways.

* `TwoImages` — one program, as a hex with its map and as an ELF
* `TwoImages.agree` — the programs that the loader makes of them
* `hex_elf_interchangeable` — no session can tell the machines apart
-/

namespace Avrsim

variable {ι : Type}

/-! ## One program in two formats -/

/--
What simavr does with a firmware that is nothing but a flash section: it takes over the clock if
there is one, copies the section to its base, and moves the end of the code past it.
-/
def Simavr.LoadsSection (sim : Simavr ι) (firmware : Firmware) : Prop :=
  ∀ (clockHz : UInt32) (c : Core ι),
    sim.avrLoadFirmware { firmware with frequency := clockHz } c
      = { c with
          frequency := if clockHz = 0 then c.frequency else clockHz
          flash := memcpy c.flash firmware.flashbase.toNat firmware.flash firmware.flashsize.toNat
          codeend := firmware.flashbase + firmware.flashsize }

/-- One program twice: as an Intel hex with a map beside it, and as an ELF. -/
structure TwoImages (sim : Simavr ι) (disk : Disk) (hexPath elfPath : String) where
  part : Part
  avr : Core ι
  labels : List AvrSymbol
  data : List AvrSymbol
  mapText : String
  chunks : List IhexChunk
  firmware : Firmware
  device : sim.avrMake deviceName = some (part, avr)
  flash : part.flashend.toNat + 1 < 2 ^ 32
  hex : (splitExtension hexPath).2 = ".hex"
  elf : (splitExtension elfPath).2 ≠ ".hex"
  -- the labels have unique names, and are in flash
  nodup : (labels.map AvrSymbol.symbol).Nodup
  inFlash : ∀ label ∈ labels, label.addr ≤ part.flashend
  -- the hex: chunks that fit in flash, and a map with a row for each label
  readChunks : disk.ihexChunks hexPath = chunks
  readable : chunks ≠ []
  fits : ∀ chunk ∈ chunks, chunk.stop ≤ part.flashend.toNat + 1
  readMap : disk.text ((splitExtension hexPath).1 ++ ".map") = some mapText
  map : MapOf labels mapText.toList
  -- the ELF: the same labels in any order, data symbols above flash, the same bytes and end
  readFirmware : disk.firmware elfPath = some firmware
  symbols : firmware.symbol.Perm (labels ++ data)
  aboveFlash : ∀ symbol ∈ data, part.flashend < symbol.addr
  otherNames : ∀ symbol ∈ data, symbol.symbol ∉ labels.map AvrSymbol.symbol
  bytes : ∀ addr, memcpy avr.flash firmware.flashbase.toNat firmware.flash
    firmware.flashsize.toNat addr = flashAfter chunks avr.flash addr
  «end» : (chunks.map IhexChunk.stop).max?
    = some (firmware.flashbase.toNat + firmware.flashsize.toNat)

namespace TwoImages

variable {sim : Simavr ι} {disk : Disk} {hexPath elfPath : String}
  (i : TwoImages sim disk hexPath elfPath)

/-- A name of a label, or one that is defined in neither image. -/
def Shared (name : String) : Prop :=
  name ∈ i.labels.map AvrSymbol.symbol ∨ name ∉ (i.labels ++ i.data).map AvrSymbol.symbol

/-- The end of the code that the loader finds in the chunks. -/
def codeEnd : UInt32 := i.chunks.foldl raiseEnd 0

theorem stop_lt {chunk : IhexChunk} (h : chunk ∈ i.chunks) : chunk.stop < 2 ^ 32 :=
  Nat.lt_of_le_of_lt (i.fits chunk h) i.flash

/-- The two ends are one. -/
theorem codeEnd_eq : i.codeEnd = i.firmware.flashbase + i.firmware.flashsize := by
  have hmax := max?_stop i.readable fun chunk h => i.stop_lt h
  rw [i.end, Option.some.injEq] at hmax
  have hlt := i.codeEnd.toNat_lt
  rw [← UInt32.toNat_inj, UInt32.toNat_add, hmax]
  exact (Nat.mod_eq_of_lt hlt).symm

theorem all_passes : i.chunks.all (IhexChunk.passes i.part.flashend) = true := by
  rw [List.all_eq_true]
  exact fun chunk h => (passes_iff_of_stop_lt i.flash (i.stop_lt h)).mpr (i.fits chunk h)

/-- The address of a name in the ELF, if it is shared: that of the label, if there is one. -/
theorem find?_firmware {name : String} (h : i.Shared name) (addr : UInt32) :
    (i.firmware.symbol.find? fun entry => name == entry.symbol).map AvrSymbol.addr = some addr
      ↔ ⟨name, addr⟩ ∈ i.labels := by
  cases hfind : i.firmware.symbol.find? (fun entry => name == entry.symbol) with
  | none =>
    rw [List.find?_eq_none] at hfind
    simp only [Option.map_none, reduceCtorEq, false_iff]
    intro hmem
    exact hfind _ (i.symbols.mem_iff.mpr (List.mem_append_left _ hmem)) (by simp)
  | some entry =>
    have hentry := i.symbols.mem_iff.mp (List.mem_of_find?_eq_some hfind)
    have hname : name = entry.symbol := by simpa using List.find?_some hfind
    subst hname
    -- the data symbols have other names, so this is the label
    have hlabel : entry ∈ i.labels := by
      rcases h with h | h
      · rcases List.mem_append.mp hentry with hmem | hmem
        · exact hmem
        · exact absurd h (i.otherNames entry hmem)
      · exact absurd (List.mem_map_of_mem hentry) h
    simp only [Option.map_some, Option.some.injEq]
    constructor
    · rintro rfl
      exact hlabel
    · intro hmem
      exact congrArg AvrSymbol.addr (List.inj_on_of_nodup_map i.nodup hlabel hmem rfl)

/-- The symbols in flash of the ELF are the labels. -/
theorem mem_flashAddrs {addr : UInt32} :
    addr ∈ (i.firmware.symbol.map AvrSymbol.addr).filter (fun addr => !(i.part.flashend < addr))
      ↔ ∃ name, ⟨name, addr⟩ ∈ i.labels := by
  simp only [List.mem_filter, List.mem_map, i.symbols.mem_iff, List.mem_append, Bool.not_eq_true',
    decide_eq_false_iff_not]
  constructor
  · rintro ⟨⟨entry, hlabel | hdata, rfl⟩, hflash⟩
    · exact ⟨entry.symbol, hlabel⟩
    · exact absurd (i.aboveFlash entry hdata) hflash
  · rintro ⟨name, hlabel⟩
    exact ⟨⟨_, Or.inl hlabel, rfl⟩, UInt32.not_lt.mpr (i.inFlash _ hlabel)⟩

/-- The program the ELF makes. -/
def elfProgram (clockHz : UInt32) : Program :=
  Program.ofElf i.part { i.firmware with frequency := clockHz }

/-- The programs of the two images agree on the names they share. -/
theorem agree {symbols : SymbolMap} (clockHz : UInt32)
    (hsymbols : ∀ name addr, symbols[name]? = some addr ↔ ⟨name, addr⟩ ∈ i.labels) :
    (Program.ofHex i.part symbols i.codeEnd).Agree i.Shared (i.elfProgram clockHz) where
  part := rfl
  trap := congrArg trapOf i.codeEnd_eq
  extentEnd := by
    have hend : (Program.ofHex i.part symbols i.codeEnd).fallbackEnd
        = (i.elfProgram clockHz).fallbackEnd := by
      show (if i.codeEnd == 0 then _ else i.codeEnd) = _
      rw [i.codeEnd_eq]
      rfl
    refine extentEnd_congr rfl rfl (fun addr => ?_) hend
    rw [mem_flashAddrs]
    simp only [List.mem_map, Prod.exists, Std.TreeMap.mem_toList_iff_getElem?_eq_some, hsymbols]
    simp
  address := by
    intro name hname
    rw [address_ofHex]
    show _ = (Program.ofElf _ _).address name
    rw [address_ofElf]
    congr 1
    ext addr
    rw [hsymbols, i.find?_firmware hname]

/-- The core of either machine. -/
def core (clockHz : UInt32) : Core ι :=
  { i.avr with
    frequency := clockHz
    flash := flashAfter i.chunks i.avr.flash
    codeend := i.codeEnd }

theorem load_hex {symbols : SymbolMap} (hread : readMapText i.mapText.toList = .ok symbols)
    (clockHz : UInt32) :
    Mcu.load sim disk.files hexPath clockHz
      = .ok (Mcu.ofProgram (Program.ofHex i.part symbols i.codeEnd) clockHz (i.core clockHz)) := by
  have himage : HexImage sim disk.files hexPath i.part i.avr symbols i.chunks := by
    refine ⟨i.device, i.hex, ?_, i.readChunks, i.readable⟩
    show disk.readMapFile _ = _
    unfold Disk.readMapFile
    rw [i.readMap]
    exact hread
  rw [load_of_hexImage himage, if_pos i.all_passes]
  rfl

theorem load_elf (hload : sim.LoadsSection i.firmware) (clockHz : UInt32) :
    Mcu.load sim disk.files elfPath clockHz
      = .ok (Mcu.ofProgram (i.elfProgram clockHz) clockHz (i.core clockHz)) := by
  have hflash : memcpy i.avr.flash i.firmware.flashbase.toNat i.firmware.flash
      i.firmware.flashsize.toNat = flashAfter i.chunks i.avr.flash := funext i.bytes
  have hcore : sim.avrLoadFirmware { i.firmware with frequency := clockHz }
      { i.avr with frequency := clockHz } = i.core clockHz := by
    rw [hload]
    simp only [ite_self, hflash, ← i.codeEnd_eq]
    rfl
  have helf : ¬ ".hex" = (splitExtension elfPath).2 := fun heq => i.elf heq.symm
  have hread : disk.files.elfReadFirmware elfPath = some i.firmware := i.readFirmware
  unfold Mcu.load
  simp only [i.device, if_neg helf, hread, hcore]
  rfl

end TwoImages

/-- Two machines with nothing between them that shows, as long as only these names are used. -/
structure Interchangeable (sim : Simavr ι) (labels : List AvrSymbol) (names : String → Prop)
    (m m' : Mcu ι) : Prop where
  has : ∀ name, names name → m.has name = m'.has name
  address : ∀ name, names name → m.address name = m'.address name
  extentEnd : ∀ label ∈ labels, m.prog.extentEnd label.addr = m'.prog.extentEnd label.addr
  trap : m.prog.trap = m'.prog.trap
  records : m.records = m'.records
  sessions : ∀ cmds : List Command, (∀ cmd ∈ cmds, ∀ symbol ∈ cmd.symbol?, names symbol) →
    transcript sim m cmds = transcript sim m' cmds

/-- **Nothing above the loader can tell a hex from an ELF.** -/
theorem hex_elf_interchangeable {sim : Simavr ι} {disk : Disk} {hexPath elfPath : String}
    (i : TwoImages sim disk hexPath elfPath) (hload : sim.LoadsSection i.firmware)
    (clockHz : UInt32) :
    ∃ m m', Mcu.load sim disk.files hexPath clockHz = .ok m
      ∧ Mcu.load sim disk.files elfPath clockHz = .ok m'
      ∧ Interchangeable sim i.labels i.Shared m m' := by
  obtain ⟨symbols, hread, hsymbols⟩ := readMapText_of_mapOf i.map i.nodup
  have hagree := i.agree clockHz hsymbols
  refine ⟨_, _, i.load_hex hread clockHz, i.load_elf hload clockHz, ?_⟩
  exact {
    has := fun name hname => congrArg (noAddress != ·) (hagree.address name hname)
    address := hagree.address
    extentEnd := fun label _ => hagree.extentEnd label.addr
    trap := hagree.trap
    records := rfl
    sessions := fun cmds hcmds => (transcript_withProg sim hagree cmds hcmds).symm }

/-! ## Two functions that take turns, in both formats -/

/-- A copy in two parts, the second first. -/
theorem memcpy_add (mem : Nat → UInt8) (dst : Nat) (src : Nat → UInt8) (size size' : Nat) :
    memcpy mem dst src (size + size')
      = memcpy (memcpy mem (dst + size) (fun offset => src (size + offset)) size') dst src size := by
  funext addr
  unfold memcpy
  by_cases hfirst : dst ≤ addr ∧ addr < dst + size
  · rw [if_pos ⟨hfirst.1, by omega⟩, if_pos hfirst]
  · rw [if_neg hfirst]
    by_cases hsecond : dst + size ≤ addr ∧ addr < dst + size + size'
    · have hoffset : addr - dst = size + (addr - (dst + size)) := by omega
      rw [if_pos ⟨by omega, by omega⟩, if_pos hsecond, hoffset]
    · rw [if_neg (by omega), if_neg hsecond]

/-- The instruction set fragment, with a loader that does with a flash section what it should. -/
def Isa.loading : Simavr Unit :=
  { Isa.simavr with
    avrLoadFirmware := fun firmware c =>
      { c with
        frequency := if firmware.frequency = 0 then c.frequency else firmware.frequency
        flash := memcpy c.flash firmware.flashbase.toNat firmware.flash firmware.flashsize.toNat
        codeend := firmware.flashbase + firmware.flashsize } }

/-- The functions of `Isa.turns`, with a buffer in the data space. -/
def turnsElf : Firmware :=
  Isa.firmware [0x0000, 0x0000, 0x0000, 0xCFFC] [⟨"f", 4⟩, ⟨"buffer", 0x800100⟩, ⟨"main", 0⟩]

/-- The same program as two chunks, the second first. -/
def turnsChunks : List IhexChunk :=
  [⟨4, 4, fun offset => turnsElf.flash (4 + offset)⟩, ⟨0, 4, turnsElf.flash⟩]

def turnsMap : String := "RAMEND   V   000008ff\n\nmain     L   00000000\nf\tL\t00000002\n"

def turnsDisk : Disk where
  text := fun path => if path = "app.map" then some turnsMap else none
  ihexChunks := fun _ => turnsChunks
  firmware := fun _ => some turnsElf

theorem mapOf_turns : MapOf [⟨"main", 0⟩, ⟨"f", 4⟩] turnsMap.toList := by
  have hrows : labelRows turnsMap.toList
      = [("main".toList, "00000000".toList), ("f".toList, "00000002".toList)] := by decide
  refine ⟨_, List.Perm.refl _, ?_⟩
  rw [hrows]
  exact .cons ⟨rfl, by decide, List.all_eq_true.mp (by decide), by decide⟩
    (.cons ⟨rfl, by decide, List.all_eq_true.mp (by decide), by decide⟩ .nil)

def turnsImages : TwoImages Isa.loading turnsDisk "app.hex" "app.elf" where
  part := Isa.atmega328p
  avr := Isa.resetCore fun _ => 0
  labels := [⟨"main", 0⟩, ⟨"f", 4⟩]
  data := [⟨"buffer", 0x800100⟩]
  mapText := turnsMap
  chunks := turnsChunks
  firmware := turnsElf
  device := rfl
  flash := by decide
  hex := by decide
  elf := by decide
  nodup := by decide
  inFlash := by decide
  readChunks := rfl
  readable := List.cons_ne_nil _ _
  fits := by decide
  readMap := by decide
  map := mapOf_turns
  readFirmware := rfl
  symbols := by decide
  aboveFlash := by decide
  otherNames := by decide
  bytes := by
    intro addr
    rw [← foldl_copyTo]
    exact congrFun (memcpy_add (fun _ => 0) 0 turnsElf.flash 4 4) addr
  «end» := by decide

theorem hex_elf_interchangeable_turns :
    ∃ m m', Mcu.load Isa.loading turnsDisk.files "app.hex" 16000000 = .ok m
      ∧ Mcu.load Isa.loading turnsDisk.files "app.elf" 16000000 = .ok m'
      ∧ Interchangeable Isa.loading turnsImages.labels turnsImages.Shared m m' :=
  hex_elf_interchangeable turnsImages (fun _ _ => rfl) 16000000

end Avrsim
