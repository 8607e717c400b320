import Avrsim.Properties.HexFlash

/-!
# A hex file is its bytes

How the bytes of a hex file are cut into chunks, and in which order the chunks stand, makes no
difference to the machine that is loaded, nor to whether it is.

* `fileByte` — the byte a file gives to an address, the last chunk winning
* `load_of_bytes` — files that give the same bytes load the same
-/

namespace Avrsim

open IhexChunk

variable {ι : Type}

/-- The byte the chunks give to an address, if one of them covers it. -/
def fileByte (chunks : List IhexChunk) (addr : Nat) : Option UInt8 :=
  (chunks.reverse.find? (IhexChunk.covers addr)).map (IhexChunk.byteAt addr)

theorem covers_iff {chunk : IhexChunk} {addr : Nat} :
    chunk.covers addr = true ↔ chunk.baseaddr.toNat ≤ addr ∧ addr < chunk.stop := by
  simp [IhexChunk.covers]

theorem isSome_fileByte {chunks : List IhexChunk} {addr : Nat} :
    (fileByte chunks addr).isSome = true ↔ ∃ chunk ∈ chunks, chunk.covers addr = true := by
  unfold fileByte
  rw [Option.isSome_map, List.find?_isSome]
  simp only [List.mem_reverse]

/-- What is not in a file stays as it was. -/
theorem flashAfter_eq (chunks : List IhexChunk) (flash : Nat → UInt8) (addr : Nat) :
    flashAfter chunks flash addr = (fileByte chunks addr).getD (flash addr) := rfl

/-- Chunks that are not empty end below a bound exactly when all their bytes are below it. -/
theorem stop_le_iff {chunks : List IhexChunk} (hsize : ∀ chunk ∈ chunks, chunk.size ≠ 0)
    (bound : Nat) : (∀ chunk ∈ chunks, chunk.stop ≤ bound)
      ↔ ∀ addr, (fileByte chunks addr).isSome = true → addr < bound := by
  simp only [isSome_fileByte]
  constructor
  · rintro hstop addr ⟨chunk, hchunk, hcovers⟩
    exact Nat.lt_of_lt_of_le (covers_iff.mp hcovers).2 (hstop chunk hchunk)
  · intro hbytes chunk hchunk
    have hpos : 0 < chunk.size.toNat := by
      have hne : chunk.size.toNat ≠ 0 := fun h0 => hsize chunk hchunk (UInt32.toNat_inj.mp h0)
      omega
    -- the last byte of the chunk
    have hlast := hbytes (chunk.stop - 1) ⟨chunk, hchunk, covers_iff.mpr (by
      unfold IhexChunk.stop
      omega)⟩
    omega

/-- Chunks that end short of the end of the address space, none of them empty. -/
structure SoundChunks (chunks : List IhexChunk) : Prop where
  stop_lt : ∀ chunk ∈ chunks, chunk.stop < 2 ^ 32
  size_ne : ∀ chunk ∈ chunks, chunk.size ≠ 0

theorem SoundChunks.all_passes {chunks : List IhexChunk} (h : SoundChunks chunks)
    {flashend : UInt32} (hflash : flashend.toNat + 1 < 2 ^ 32) :
    chunks.all (IhexChunk.passes flashend) = true
      ↔ ∀ addr, (fileByte chunks addr).isSome = true → addr < flashend.toNat + 1 := by
  rw [← stop_le_iff h.size_ne, List.all_eq_true]
  exact forall₂_congr fun chunk hchunk => passes_iff_of_stop_lt hflash (h.stop_lt chunk hchunk)

theorem SoundChunks.codeEnd_le_iff {chunks : List IhexChunk} (h : SoundChunks chunks)
    (hne : chunks ≠ []) (bound : Nat) :
    (chunks.foldl raiseEnd 0).toNat ≤ bound
      ↔ ∀ addr, (fileByte chunks addr).isSome = true → addr < bound := by
  rw [← stop_le_iff h.size_ne, List.max?_le_iff (max?_stop hne h.stop_lt)]
  simp only [List.mem_map, forall_exists_index, and_imp, forall_apply_eq_imp_iff₂]

/--
**A hex file is its bytes.** Two hex files that give the same byte to every address, the last of
several chunks winning, load the same machine or fail with the same message, however their bytes are
cut into chunks and in whatever order these stand, if no chunk is empty and every chunk ends short
of the end of the address space.
-/
theorem load_of_bytes {sim : Simavr ι} {files files' : Files} {imagePath : String} {part : Part}
    {avr : Core ι} {symbols : SymbolMap} {chunks chunks' : List IhexChunk}
    (h : HexImage sim files imagePath part avr symbols chunks)
    (h' : HexImage sim files' imagePath part avr symbols chunks')
    (hflash : part.flashend.toNat + 1 < 2 ^ 32) (hchunks : SoundChunks chunks)
    (hchunks' : SoundChunks chunks') (hbytes : ∀ addr, fileByte chunks addr = fileByte chunks' addr)
    (clockHz : UInt32) :
    Mcu.load sim files imagePath clockHz = Mcu.load sim files' imagePath clockHz := by
  have hpasses : chunks.all (IhexChunk.passes part.flashend)
      = chunks'.all (IhexChunk.passes part.flashend) := by
    rw [Bool.eq_iff_iff, hchunks.all_passes hflash, hchunks'.all_passes hflash]
    simp only [hbytes]
  have hend : chunks.foldl raiseEnd 0 = chunks'.foldl raiseEnd 0 := by
    refine UInt32.toNat_inj.mp (Nat.le_antisymm ?_ ?_)
    · rw [hchunks.codeEnd_le_iff h.readable]
      simp only [hbytes]
      exact (hchunks'.codeEnd_le_iff h'.readable _).mp (Nat.le_refl _)
    · rw [hchunks'.codeEnd_le_iff h'.readable]
      simp only [← hbytes]
      exact (hchunks.codeEnd_le_iff h.readable _).mp (Nat.le_refl _)
  have hflashAfter : flashAfter chunks avr.flash = flashAfter chunks' avr.flash := by
    funext addr
    rw [flashAfter_eq, flashAfter_eq, hbytes]
  rw [load_of_hexImage h, load_of_hexImage h', hpasses, hend, hflashAfter]

/-- Six bytes in two chunks that overlap, and in three that do not, the highest first. -/
theorem load_of_bytes_split :
    Mcu.load Isa.simavr (hexFiles [⟨0, 4, fun _ => 1⟩, ⟨2, 4, fun _ => 2⟩]) "app.hex" 16000000
      = Mcu.load Isa.simavr
        (hexFiles [⟨4, 2, fun _ => 2⟩, ⟨0, 2, fun _ => 1⟩, ⟨2, 2, fun _ => 2⟩]) "app.hex"
        16000000 := by
  have hlow : ∀ addr < 6, fileByte [⟨0, 4, fun _ => 1⟩, ⟨2, 4, fun _ => 2⟩] addr
      = fileByte [⟨4, 2, fun _ => 2⟩, ⟨0, 2, fun _ => 1⟩, ⟨2, 2, fun _ => 2⟩] addr := by decide
  refine load_of_bytes (hexImage_hexFiles (List.cons_ne_nil _ _))
    (hexImage_hexFiles (List.cons_ne_nil _ _)) (by decide) ⟨by decide, by decide⟩
    ⟨by decide, by decide⟩ (fun addr => ?_) 16000000
  by_cases haddr : addr < 6
  · exact hlow addr haddr
  · have hnone : ∀ {chunks : List IhexChunk}, (∀ chunk ∈ chunks, chunk.stop ≤ 6) →
        fileByte chunks addr = none := by
      intro chunks hchunks
      rw [← Option.not_isSome_iff_eq_none, isSome_fileByte]
      rintro ⟨chunk, hchunk, hcovers⟩
      have hstop := hchunks chunk hchunk
      exact absurd (covers_iff.mp hcovers).2 (by omega)
    rw [hnone (by decide), hnone (by decide)]

end Avrsim
