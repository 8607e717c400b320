import Mathlib.Algebra.Order.Ring.Nat
import Mathlib.Data.List.Induction
import Mathlib.Data.List.TakeWhile
import Avrsim.Isa

/-!
# The hex loader and flash

The bound on a chunk is checked on a sum of 32 bits, the copy uses the base address alone. The two
agree as long as no chunk goes past the end of the address space. One that does wraps to a small
sum, passes the check, and is copied outside flash.

* `loadChunks_eq` — the loop of the loader, in one step
* `flashAfter` — what flash holds when every chunk has been copied, a later one winning
* `hexSafe_iff` — the loader stays within flash exactly when no chunk it copies wraps
-/

namespace Avrsim

variable {ι : Type}

namespace IhexChunk

/-- One past the last byte of a chunk, in exact arithmetic. -/
def stop (chunk : IhexChunk) : Nat := chunk.baseaddr.toNat + chunk.size.toNat

/-- The check the loader makes. -/
def passes (flashend : UInt32) (chunk : IhexChunk) : Bool :=
  !(flashend + 1 < chunk.baseaddr + chunk.size)

def covers (addr : Nat) (chunk : IhexChunk) : Bool :=
  decide (chunk.baseaddr.toNat ≤ addr) && decide (addr < chunk.stop)

/-- The byte a chunk has for an address it covers. -/
def byteAt (addr : Nat) (chunk : IhexChunk) : UInt8 := chunk.data (addr - chunk.baseaddr.toNat)

/-- What a chunk makes of flash. -/
def copyTo (flash : Nat → UInt8) (chunk : IhexChunk) : Nat → UInt8 :=
  memcpy flash chunk.baseaddr.toNat chunk.data chunk.size.toNat

theorem copyTo_of_covers {flash : Nat → UInt8} {chunk : IhexChunk} {addr : Nat}
    (h : chunk.covers addr = true) : chunk.copyTo flash addr = chunk.byteAt addr := by
  simp only [covers, Bool.and_eq_true, decide_eq_true_eq] at h
  exact if_pos h

theorem copyTo_of_not_covers {flash : Nat → UInt8} {chunk : IhexChunk} {addr : Nat}
    (h : chunk.covers addr = false) : chunk.copyTo flash addr = flash addr := by
  refine if_neg fun hin => ?_
  have htrue : chunk.covers addr = true := by
    simp only [covers, Bool.and_eq_true, decide_eq_true_eq]
    exact hin
  rw [htrue] at h
  cases h

end IhexChunk

open IhexChunk

/-! ## The loop of the loader -/

/-- The chunks the loader copies: those before the first that fails the check. -/
def copied (flashend : UInt32) (chunks : List IhexChunk) : List IhexChunk :=
  chunks.takeWhile (IhexChunk.passes flashend)

/-- `codeEnd` after one more chunk. -/
def raiseEnd (codeEnd : UInt32) (chunk : IhexChunk) : UInt32 :=
  if chunk.baseaddr + chunk.size > codeEnd then chunk.baseaddr + chunk.size else codeEnd

/-- Every chunk is copied, or the loader stops at the first that fails the check. -/
theorem loadChunks_eq (imagePath : String) (flashend : UInt32) :
    ∀ (chunks : List IhexChunk) (flash : Nat → UInt8) (codeEnd : UInt32),
      loadChunks imagePath flashend chunks flash codeEnd
        = if chunks.all (IhexChunk.passes flashend) then
            .ok (chunks.foldl (fun flash chunk => chunk.copyTo flash) flash,
              chunks.foldl raiseEnd codeEnd)
          else .error ("program does not fit in flash: " ++ imagePath)
  | [], _, _ => rfl
  | chunk :: chunks, flash, codeEnd => by
    rw [loadChunks, List.all_cons]
    by_cases hfit : flashend + 1 < chunk.baseaddr + chunk.size
    · simp [hfit, IhexChunk.passes]
    · have hpass : chunk.passes flashend = true := by simpa [IhexChunk.passes] using hfit
      rw [if_neg hfit, hpass, Bool.true_and, loadChunks_eq imagePath flashend chunks]
      rfl

/-- Flash after the chunks have been copied, byte by byte: the last chunk that covers it. -/
def flashAfter (chunks : List IhexChunk) (flash : Nat → UInt8) (addr : Nat) : UInt8 :=
  ((chunks.reverse.find? (IhexChunk.covers addr)).map (IhexChunk.byteAt addr)).getD (flash addr)

theorem foldl_copyTo (flash : Nat → UInt8) (addr : Nat) (chunks : List IhexChunk) :
    chunks.foldl (fun flash chunk => chunk.copyTo flash) flash addr
      = flashAfter chunks flash addr := by
  induction chunks using List.reverseRecOn with
  | nil => rfl
  | append_singleton chunks chunk ih =>
    rw [List.foldl_append, List.foldl_cons, List.foldl_nil]
    unfold flashAfter
    rw [List.reverse_concat']
    cases hc : chunk.covers addr with
    | true => rw [copyTo_of_covers hc, List.find?_cons_of_pos hc, Option.map_some, Option.getD_some]
    | false =>
      rw [copyTo_of_not_covers hc, ih, List.find?_cons_of_neg (by simp [hc])]
      rfl

/-! ## Chunks that do not wrap -/

theorem toNat_add_of_stop_lt {chunk : IhexChunk} (h : chunk.stop < 2 ^ 32) :
    (chunk.baseaddr + chunk.size).toNat = chunk.stop := by
  rw [UInt32.toNat_add]
  exact Nat.mod_eq_of_lt h

/-- The check is exact for a chunk that does not wrap. -/
theorem passes_iff_of_stop_lt {flashend : UInt32} (hflash : flashend.toNat + 1 < 2 ^ 32)
    {chunk : IhexChunk} (h : chunk.stop < 2 ^ 32) :
    chunk.passes flashend = true ↔ chunk.stop ≤ flashend.toNat + 1 := by
  have hsize : (flashend + 1).toNat = flashend.toNat + 1 := by
    rw [UInt32.toNat_add, UInt32.toNat_one]
    exact Nat.mod_eq_of_lt hflash
  simp only [IhexChunk.passes, Bool.not_eq_true', decide_eq_false_iff_not, UInt32.not_lt,
    UInt32.le_iff_toNat_le, toNat_add_of_stop_lt h, hsize]

theorem toNat_raiseEnd {chunk : IhexChunk} (h : chunk.stop < 2 ^ 32) (codeEnd : UInt32) :
    (raiseEnd codeEnd chunk).toNat = max codeEnd.toNat chunk.stop := by
  unfold raiseEnd
  rw [← toNat_add_of_stop_lt h]
  split
  · next hgt =>
    rw [gt_iff_lt, UInt32.lt_iff_toNat_lt] at hgt
    omega
  · next hle =>
    rw [gt_iff_lt, UInt32.lt_iff_toNat_lt] at hle
    omega

theorem toNat_foldl_raiseEnd : ∀ {chunks : List IhexChunk}, (∀ chunk ∈ chunks, chunk.stop < 2 ^ 32) →
    ∀ codeEnd : UInt32,
      (chunks.foldl raiseEnd codeEnd).toNat
        = (chunks.map IhexChunk.stop).foldl max codeEnd.toNat
  | [], _, _ => rfl
  | chunk :: chunks, h, codeEnd => by
    rw [List.foldl_cons, toNat_foldl_raiseEnd fun c hc => h c (List.mem_cons_of_mem _ hc),
      toNat_raiseEnd (h chunk List.mem_cons_self)]
    rfl

/-- From nothing, the end found is the largest. -/
theorem max?_stop {chunks : List IhexChunk} (hne : chunks ≠ [])
    (h : ∀ chunk ∈ chunks, chunk.stop < 2 ^ 32) :
    (chunks.map IhexChunk.stop).max? = some (chunks.foldl raiseEnd 0).toNat := by
  rw [toNat_foldl_raiseEnd h]
  cases chunks with
  | nil => exact absurd rfl hne
  | cons chunk chunks =>
    simp only [List.map_cons, List.max?_cons', List.foldl_cons, UInt32.toNat_zero, Nat.zero_max]

/-! ## The constructor -/

/-- The constructor finds a hex file with these chunks, and a map beside it. -/
structure HexImage (sim : Simavr ι) (files : Files) (imagePath : String) (part : Part)
    (avr : Core ι) (symbols : SymbolMap) (chunks : List IhexChunk) : Prop where
  device : sim.avrMake deviceName = some (part, avr)
  hex : (splitExtension imagePath).2 = ".hex"
  map : files.readMapFile ((splitExtension imagePath).1 ++ ".map") = .ok symbols
  read : files.readIhexChunks imagePath = chunks
  readable : chunks ≠ []

theorem load_of_hexImage {sim : Simavr ι} {files : Files} {imagePath : String} {part : Part}
    {avr : Core ι} {symbols : SymbolMap} {chunks : List IhexChunk}
    (h : HexImage sim files imagePath part avr symbols chunks) (clockHz : UInt32) :
    Mcu.load sim files imagePath clockHz
      = if chunks.all (IhexChunk.passes part.flashend) then
          .ok (Mcu.ofProgram (Program.ofHex part symbols (chunks.foldl raiseEnd 0)) clockHz
            { avr with
              frequency := clockHz
              flash := flashAfter chunks avr.flash
              codeend := chunks.foldl raiseEnd 0 })
        else .error ("program does not fit in flash: " ++ imagePath) := by
  have hempty : chunks.isEmpty = false := by
    rw [List.isEmpty_eq_false_iff]
    exact h.readable
  have hflash : chunks.foldl (fun flash chunk => chunk.copyTo flash) avr.flash
      = flashAfter chunks avr.flash := funext fun addr => foldl_copyTo avr.flash addr chunks
  unfold Mcu.load
  simp only [h.device, h.hex, h.map, h.read, hempty, loadChunks_eq, hflash]
  by_cases hall : chunks.all (IhexChunk.passes part.flashend) = true
  · simp [hall]
  · simp [hall]

/--
The loader never writes outside flash: no chunk it copies goes past the end, and it either stops
because the program does not fit or ends with every chunk in flash and `codeEnd` after them all.
-/
def HexSafe (part : Part) (flash : Nat → UInt8) (imagePath : String) (chunks : List IhexChunk)
    (result : Except String (Mcu ι)) : Prop :=
  (∀ chunk ∈ copied part.flashend chunks, chunk.stop ≤ part.flashend.toNat + 1)
    ∧ (result = .error ("program does not fit in flash: " ++ imagePath)
      ∨ ∃ m, result = .ok m ∧ (∀ chunk ∈ chunks, chunk.stop ≤ part.flashend.toNat + 1)
        ∧ (∀ addr, m.avr.flash addr = flashAfter chunks flash addr)
        ∧ (chunks.map IhexChunk.stop).max? = some m.prog.codeEnd.toNat)

/--
**The hex loader stays within flash exactly when no chunk it copies goes past the end of the
address space.** Such a chunk has a sum that is small again.
-/
theorem hexSafe_iff {sim : Simavr ι} {files : Files} {imagePath : String} {part : Part}
    {avr : Core ι} {symbols : SymbolMap} {chunks : List IhexChunk}
    (h : HexImage sim files imagePath part avr symbols chunks)
    (hflash : part.flashend.toNat + 1 < 2 ^ 32) (clockHz : UInt32) :
    HexSafe part avr.flash imagePath chunks (Mcu.load sim files imagePath clockHz)
      ↔ ∀ chunk ∈ copied part.flashend chunks, chunk.stop < 2 ^ 32 := by
  constructor
  · rintro ⟨hwithin, -⟩ chunk hchunk
    exact Nat.lt_of_le_of_lt (hwithin chunk hchunk) hflash
  · intro hwrap
    have hwithin : ∀ chunk ∈ copied part.flashend chunks,
        chunk.stop ≤ part.flashend.toNat + 1 := by
      intro chunk hchunk
      exact (passes_iff_of_stop_lt hflash (hwrap chunk hchunk)).mp
        (List.mem_takeWhile_imp hchunk)
    refine ⟨hwithin, ?_⟩
    rw [load_of_hexImage h]
    by_cases hall : chunks.all (IhexChunk.passes part.flashend) = true
    · -- every chunk passes the check, so all of them are copied
      have hcopied : copied part.flashend chunks = chunks :=
        List.takeWhile_eq_self_iff.mpr fun chunk hchunk => List.all_eq_true.mp hall chunk hchunk
      rw [hcopied] at hwrap hwithin
      rw [if_pos hall]
      exact Or.inr ⟨_, rfl, hwithin, fun _ => rfl, max?_stop h.readable hwrap⟩
    · rw [if_neg hall]
      exact Or.inl rfl

/-- The files of a hex image without labels. -/
def hexFiles (chunks : List IhexChunk) : Files where
  readMapFile := fun _ => .ok ∅
  readIhexChunks := fun _ => chunks
  elfReadFirmware := fun _ => none

theorem hexImage_hexFiles {chunks : List IhexChunk} (hne : chunks ≠ []) :
    HexImage Isa.simavr (hexFiles chunks) "app.hex" Isa.atmega328p (Isa.resetCore fun _ => 0) ∅
      chunks where
  device := rfl
  hex := by decide
  map := rfl
  read := rfl
  readable := hne

/-- Two chunks that overlap. -/
theorem hexSafe_iff_overlap :
    HexSafe Isa.atmega328p (fun _ => 0) "app.hex"
      [⟨0, 4, fun _ => 1⟩, ⟨2, 4, fun _ => 2⟩]
      (Mcu.load Isa.simavr (hexFiles [⟨0, 4, fun _ => 1⟩, ⟨2, 4, fun _ => 2⟩]) "app.hex"
        16000000) := by
  refine (hexSafe_iff (hexImage_hexFiles (List.cons_ne_nil _ _)) (by decide) 16000000).mpr ?_
  intro chunk hchunk
  have hmem := List.takeWhile_subset _ hchunk
  simp only [List.mem_cons, List.not_mem_nil, or_false] at hmem
  rcases hmem with rfl | rfl <;> decide

/-- Sixteen bytes at the very end of the address space: their sum is 0, and they are copied. -/
theorem not_hexSafe_wrap :
    (∃ m, Mcu.load Isa.simavr (hexFiles [⟨0xFFFFFFF0, 0x10, fun _ => 1⟩]) "app.hex" 16000000 = .ok m
        ∧ m.avr.flash 0xFFFFFFF0 = 1 ∧ m.prog.codeEnd = 0)
      ∧ ¬ HexSafe Isa.atmega328p (fun _ => 0) "app.hex" [⟨0xFFFFFFF0, 0x10, fun _ => 1⟩]
        (Mcu.load Isa.simavr (hexFiles [⟨0xFFFFFFF0, 0x10, fun _ => 1⟩]) "app.hex" 16000000) := by
  constructor
  · rw [load_of_hexImage (hexImage_hexFiles (List.cons_ne_nil _ _))]
    exact ⟨_, rfl, by decide, by decide⟩
  · rintro ⟨hwithin, -⟩
    exact absurd (hwithin _ List.mem_cons_self) (by decide)

end Avrsim
