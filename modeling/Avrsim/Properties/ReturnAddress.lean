import Mathlib.Order.Bounds.Basic
import Avrsim.Infra.Digits
import Avrsim.Properties.CallSetup
import Avrsim.Properties.Extents

/-!
# The return address

`call` pushes the trap as a word address, least significant byte first and downwards. `ret` reads
upwards, most significant byte first, and doubles what it has.

* `isLeast_trapOf` — the trap is the first even address at the end of the code or past it
* `pushUpTo_pushed` and `pushUpTo_of_ne` — which byte of the data space is which after the push
* `setUp_decodes` — what `ret` makes of what `call` leaves
-/

namespace Avrsim

open Infra.Digits

variable {ι : Type}

/-! ## The trap -/

/-- All bits but the lowest. -/
theorem and_mask {n : Nat} (h : n < 2 ^ 32) : n &&& 0xFFFFFFFE = n / 2 * 2 := by
  apply Nat.eq_of_testBit_eq
  intro i
  have hmask : Nat.testBit 0xFFFFFFFE i = (decide (i < 32) && !Nat.testBit 1 i) :=
    Nat.testBit_two_pow_sub_succ (by decide : 1 < 2 ^ 32) i
  rw [Nat.testBit_and, hmask]
  cases i with
  | zero =>
    have heven : n / 2 * 2 % 2 = 0 := Nat.mul_mod_left _ _
    simp [Nat.testBit_zero, heven]
  | succ i =>
    have hhalf : (n / 2 * 2).testBit (i + 1) = n.testBit (i + 1) := by
      rw [Nat.testBit_succ, Nat.mul_div_cancel _ (by decide), ← Nat.testBit_succ]
    rw [hhalf]
    by_cases hi : i + 1 < 32
    · simp [hi, Nat.testBit_succ]
    · have hlt : n < 2 ^ (i + 1) :=
        Nat.lt_of_lt_of_le h (Nat.pow_le_pow_right (by decide) (by omega))
      rw [Nat.testBit_lt_two_pow hlt]
      rfl

theorem toNat_trapOf {codeEnd : UInt32} (h : codeEnd.toNat + 1 < 2 ^ 32) :
    (trapOf codeEnd).toNat = (codeEnd.toNat + 1) / 2 * 2 := by
  have hmask : ~~~(bytesPerWord - 1) = 0xFFFFFFFE := by decide
  unfold trapOf
  simp only [hmask]
  rw [UInt32.toNat_and, UInt32.toNat_add, UInt32.toNat_one, Nat.mod_eq_of_lt h]
  exact and_mask h

/-- In words, which is what `call` pushes. -/
theorem toNat_trapOf_div {codeEnd : UInt32} (h : codeEnd.toNat + 1 < 2 ^ 32) :
    (trapOf codeEnd / bytesPerWord).toNat = (codeEnd.toNat + 1) / 2 := by
  have htwo : bytesPerWord.toNat = 2 := rfl
  rw [UInt32.toNat_div, toNat_trapOf h, htwo]
  omega

/-- The trap is the first even address at the end of the code or past it. -/
theorem isLeast_trapOf {codeEnd : UInt32} (h : codeEnd.toNat + 1 < 2 ^ 32) :
    IsLeast {addr : Nat | Even addr ∧ codeEnd.toNat ≤ addr} (trapOf codeEnd).toNat := by
  rw [toNat_trapOf h]
  refine ⟨⟨?_, by omega⟩, ?_⟩
  · exact (Nat.even_mul.mpr (Or.inr (by decide)))
  · rintro addr ⟨⟨half, rfl⟩, hle⟩
    omega

/-! ## The bytes on the stack -/

/-- Byte `i` of a return address, as `call` cuts it out. -/
def returnByte (returnWord : UInt32) (i : Nat) : UInt8 :=
  ((returnWord >>> (8 * UInt8.ofNat i).toUInt32) &&& 0xFF).toUInt8

theorem toNat_returnByte (returnWord : UInt32) {i : Nat} (h : i < 4) :
    (returnByte returnWord i).toNat = returnWord.toNat / 256 ^ i % 256 := by
  have hshift : (8 * UInt8.ofNat i).toUInt32.toNat % 32 = 8 * i := by
    have hcases : i = 0 ∨ i = 1 ∨ i = 2 ∨ i = 3 := by omega
    rcases hcases with rfl | rfl | rfl | rfl <;> rfl
  have hmask (n : Nat) : n &&& 255 = n % 256 := Nat.and_two_pow_sub_one_eq_mod n 8
  have hbyte : (0xFF : UInt32).toNat = 255 := rfl
  unfold returnByte
  rw [UInt32.toNat_toUInt8, UInt32.toNat_and, UInt32.toNat_shiftRight, hshift, hbyte, hmask,
    Nat.shiftRight_eq_div_pow, Nat.pow_mul, Nat.mod_mod]

section

variable (returnWord : UInt32) (data : UInt16 → UInt8) (stack : UInt16)

/-- A byte that is pushed is not pushed over. -/
theorem pushUpTo_pushed {n : Nat} (hn : n ≤ 2 ^ 16) {i : Nat} (hi : i < n) :
    (pushUpTo returnWord data stack n).1 (stack - UInt16.ofNat i) = returnByte returnWord i := by
  induction n with
  | zero => omega
  | succ n ih =>
    rw [pushUpTo_succ_fst, pushUpTo_snd]
    by_cases hlast : i = n
    · rw [if_pos (by rw [hlast]), hlast]
      rfl
    · have hne : stack - UInt16.ofNat i ≠ stack - UInt16.ofNat n := by
        intro heq
        have hoffset : UInt16.ofNat i = UInt16.ofNat n := by grind
        rw [← UInt16.toNat_inj, UInt16.toNat_ofNat', UInt16.toNat_ofNat'] at hoffset
        omega
      rw [if_neg hne]
      exact ih (by omega) (by omega)

/-- Nothing else is written. -/
theorem pushUpTo_of_ne {addr : UInt16} :
    ∀ {n : Nat}, (∀ i < n, addr ≠ stack - UInt16.ofNat i) →
      (pushUpTo returnWord data stack n).1 addr = data addr
  | 0, _ => rfl
  | n + 1, h => by
    rw [pushUpTo_succ_fst, pushUpTo_snd, if_neg (h n (Nat.lt_succ_self n)),
      pushUpTo_of_ne fun i hi => h i (Nat.lt_succ_of_lt hi)]

end

/-- `call` writes the return address, the two bytes of the stack pointer, and nothing else. -/
theorem enterCall_data (prog : Program) (entry : UInt32) (c : Core ι) {addr : UInt16}
    (hspl : addr ≠ splAddress) (hsph : addr ≠ sphAddress) :
    (prog.enterCall entry c).data addr
      = (pushUpTo (prog.trap / bytesPerWord) c.data prog.part.ramend
          prog.part.addressSize.toNat).1 addr := by
  simp only [Program.enterCall, Core.write_data_of_ne _ hsph, Core.write_data_of_ne _ hspl]
  rfl

/-! ## What `ret` reads -/

/-- The bytes upwards from `addr`, most significant first. -/
def wordUp (data : UInt16 → UInt8) (addr : UInt16) (n : Nat) : Nat :=
  (List.range n).foldl (fun word i => 256 * word + (data (addr + UInt16.ofNat i)).toNat) 0

/-- A word of 32 bits that takes byte after byte keeps what 32 bits keep of the number. -/
theorem toNat_foldl_byte (byte : Nat → UInt8) (l : List Nat) :
    ∀ {word : UInt32} {n : Nat}, word.toNat = n % 2 ^ 32 →
      (l.foldl (fun word i => 256 * word + (byte i).toUInt32) word).toNat
        = l.foldl (fun word i => 256 * word + (byte i).toNat) n % 2 ^ 32 := by
  induction l with
  | nil => exact fun h => h
  | cons i l ih =>
    intro word n h
    have hbase : (256 : UInt32).toNat = 256 := rfl
    have hstep : (256 * word + (byte i).toUInt32).toNat
        = (256 * n + (byte i).toNat) % 2 ^ 32 := by
      rw [UInt32.toNat_add, UInt32.toNat_mul, UInt8.toNat_toUInt32, h, hbase]
      omega
    rw [List.foldl_cons, List.foldl_cons]
    exact ih hstep

/-- The core reads them in 32 bits. -/
theorem toNat_popAddress (part : Part) (c : Core ι) :
    (Isa.popAddress part c).toNat
      = 2 * wordUp c.data (c.sp + 1) part.addressSize.toNat % 2 ^ 32 := by
  have htwo : bytesPerWord.toNat = 2 := rfl
  unfold Isa.popAddress wordUp
  rw [UInt32.toNat_mul, toNat_foldl_byte _ _ (n := 0) rfl, htwo]
  omega

/-- Up to four bytes are the digits of the word address. -/
theorem value_returnByte_of_le (returnWord : UInt32) {n : Nat} (hn : n ≤ 4) :
    value 256 (fun i => (returnByte returnWord i).toNat) n = returnWord.toNat % 256 ^ n := by
  rw [← value_digits]
  exact value_congr fun i hi => toNat_returnByte returnWord (by omega)

theorem value_returnByte {returnWord : UInt32} {n : Nat} (hword : returnWord.toNat < 256 ^ n) :
    value 256 (fun i => (returnByte returnWord i).toNat) n % 2 ^ 32 = returnWord.toNat := by
  have hlt := returnWord.toNat_lt
  rcases Nat.le_total n 4 with hn | hn
  · rw [value_returnByte_of_le returnWord hn, Nat.mod_eq_of_lt hword]
    exact Nat.mod_eq_of_lt hlt
  · -- the bytes past the fourth do not fit in 32 bits
    have hpow : (256 : Nat) ^ 4 = 2 ^ 32 := by decide
    rw [← hpow, value_mod _ _ hn, value_returnByte_of_le returnWord (Nat.le_refl 4), Nat.mod_mod,
      hpow]
    exact Nat.mod_eq_of_lt hlt

/-! ## The setup of a call -/

/-- A machine after what `call` does before its loop. -/
def Mcu.setUp (m : Mcu ι) (symbol : String) : Mcu ι :=
  { m with avr := m.prog.enterCall (m.address symbol) m.avr }

/-- That machine is the one the loop of `call` starts from. -/
theorem call_eq_stepUntil (sim : Simavr ι) {m : Mcu ι} {symbol : String}
    (hdef : m.address symbol ≠ noAddress) (cycleBudget : UInt64) :
    m.call sim symbol cycleBudget
      = Mcu.stepUntil sim m.prog.trap cycleBudget (m.setUp symbol).cycle cycleBudget.toNat
          (m.setUp symbol) := by
  unfold Mcu.call
  simp only [if_neg (Ne.symm hdef)]
  rfl

/-- There is room for the return address between the stack pointer's own bytes and RAMEND. -/
def Part.HasRoom (part : Part) : Prop :=
  sphAddress.toNat + part.addressSize.toNat < part.ramend.toNat

section

variable {prog : Program} {entry : UInt32} {c : Core ι}

theorem toNat_sub_offset {part : Part} (hroom : part.HasRoom) {i : Nat}
    (hi : i ≤ part.addressSize.toNat) :
    (part.ramend - UInt16.ofNat i).toNat = part.ramend.toNat - i := by
  have hlt := part.ramend.toNat_lt
  unfold Part.HasRoom at hroom
  have hofNat : (UInt16.ofNat i).toNat = i := by
    rw [UInt16.toNat_ofNat', Nat.mod_eq_of_lt (by omega)]
  rw [UInt16.toNat_sub_of_le, hofNat]
  rw [UInt16.le_iff_toNat_le, hofNat]
  omega

theorem toNat_sp_enterCall (hroom : prog.part.HasRoom) :
    (prog.enterCall entry c).sp.toNat + prog.part.addressSize.toNat = prog.part.ramend.toNat := by
  have hsize : prog.part.addressSize.toUInt16 = UInt16.ofNat prog.part.addressSize.toNat := by simp
  have h := toNat_sub_offset hroom (Nat.le_refl _)
  unfold Part.HasRoom at hroom
  rw [sp_enterCall, hsize, h]
  omega

/-- The bytes of the return address are above those of the stack pointer. -/
theorem data_enterCall_pushed (hroom : prog.part.HasRoom) {i : Nat}
    (hi : i < prog.part.addressSize.toNat) :
    (prog.enterCall entry c).data (prog.part.ramend - UInt16.ofNat i)
      = returnByte (prog.trap / bytesPerWord) i := by
  have hroom' := hroom
  unfold Part.HasRoom at hroom'
  have haddr := toNat_sub_offset hroom (Nat.le_of_lt hi)
  have hsph : sphAddress.toNat = 94 := rfl
  have hspl : splAddress.toNat = 93 := rfl
  have hne : ∀ {addr : UInt16}, addr.toNat ≤ 94 →
      prog.part.ramend - UInt16.ofNat i ≠ addr := by
    rintro addr hle rfl
    omega
  have hsize := prog.part.addressSize.toNat_lt
  rw [enterCall_data prog entry c (hne (by omega)) (hne (by omega))]
  exact pushUpTo_pushed _ _ _ (by omega) hi

theorem wordUp_enterCall (hroom : prog.part.HasRoom) :
    wordUp (prog.enterCall entry c).data ((prog.enterCall entry c).sp + 1)
        prog.part.addressSize.toNat
      = value 256 (fun i => (returnByte (prog.trap / bytesPerWord) i).toNat)
          prog.part.addressSize.toNat := by
  have hread : ∀ word : Nat, ∀ i ∈ List.range prog.part.addressSize.toNat,
      256 * word + ((prog.enterCall entry c).data
          ((prog.enterCall entry c).sp + 1 + UInt16.ofNat i)).toNat
        = 256 * word + (returnByte (prog.trap / bytesPerWord)
          (prog.part.addressSize.toNat - 1 - i)).toNat := by
    intro word i hi
    have hlt := List.mem_range.mp hi
    obtain ⟨j, hj⟩ : ∃ j, prog.part.addressSize.toNat = j + i + 1 :=
      ⟨prog.part.addressSize.toNat - 1 - i, by omega⟩
    -- upwards from the stack pointer is downwards from RAMEND
    have haddr : (prog.enterCall entry c).sp + 1 + UInt16.ofNat i
        = prog.part.ramend - UInt16.ofNat j := by
      have hsize : prog.part.addressSize.toUInt16 = UInt16.ofNat (j + i + 1) := by
        rw [← hj]
        simp
      rw [sp_enterCall, hsize, UInt16.ofNat_add, UInt16.ofNat_add]
      grind
    have hindex : prog.part.addressSize.toNat - 1 - i = j := by omega
    rw [haddr, hindex, data_enterCall_pushed hroom (by omega)]
  rw [← foldl_digits]
  exact List.foldl_ext _ _ _ hread

end

/-- Flash ends a little before the last byte a 32-bit address reaches. On no AVR is it near it. -/
def Part.Addressable (part : Part) : Prop := part.flashend.toNat + 2 < 2 ^ 32

/-- What `call` has left on the machine `m'` decodes to the trap of `m`. -/
structure Decodes (m m' : Mcu ι) : Prop where
  trap : IsLeast {addr : Nat | Even addr ∧ m.prog.codeEnd.toNat ≤ addr} m.prog.trap.toNat
  ret : Isa.popAddress m.prog.part m'.avr = m.prog.trap
  -- with more bytes than a word has, only what 32 bits keep of them counts
  exact : m.prog.part.addressSize ≤ 4 →
    2 * wordUp m'.avr.data (m'.stackPtr + 1) m.prog.part.addressSize.toNat = m.prog.trap.toNat
  stackPtr : m'.stackPtr.toNat + m.prog.part.addressSize.toNat = m.prog.part.ramend.toNat
  frame : ∀ addr, addr ≠ splAddress → addr ≠ sphAddress →
    (∀ i < m.prog.part.addressSize.toNat, addr ≠ m.prog.part.ramend - UInt16.ofNat i) →
      m'.avr.data addr = m.avr.data addr

theorem stackPtr_setUp {m : Mcu ι} (hroom : m.prog.part.HasRoom) (symbol : String) :
    (m.setUp symbol).stackPtr = (m.setUp symbol).avr.sp := by
  have hsph : sphAddress ≤ m.prog.part.ramend := by
    rw [UInt16.le_iff_toNat_le]
    unfold Part.HasRoom at hroom
    omega
  have hspl : splAddress ≤ m.prog.part.ramend := UInt16.le_trans (by decide) hsph
  show (if splAddress ≤ m.prog.part.ramend then _ else _ : UInt8).toUInt16
    ||| ((if sphAddress ≤ m.prog.part.ramend then _ else _ : UInt8).toUInt16 <<< 8) = _
  rw [if_pos hspl, if_pos hsph]
  rfl

/--
**The return address that `call` fakes decodes to the trap**, at any time after a program has been
loaded that fits in flash and whose word addresses fit in the bytes of a return address.
-/
theorem setUp_decodes {sim : Simavr ι} {files : Files} {imagePath : String} {clockHz : UInt32}
    {m₀ m : Mcu ι} (hload : Mcu.load sim files imagePath clockHz = .ok m₀)
    (hprog : m.prog = m₀.prog) (hflash : m.prog.part.Addressable) (hfit : m.prog.FitsFlash)
    (hsize : (m.prog.codeEnd.toNat + 1) / 2 < 256 ^ m.prog.part.addressSize.toNat)
    (hroom : m.prog.part.HasRoom) (symbol : String) : Decodes m (m.setUp symbol) := by
  have htrap : m.prog.trap = trapOf m.prog.codeEnd := by
    rw [hprog]
    exact trap_of_load hload
  have hlt : m.prog.codeEnd.toNat + 1 < 2 ^ 32 := by
    unfold Part.Addressable at hflash
    unfold Program.FitsFlash at hfit
    omega
  have htrapNat : m.prog.trap.toNat = (m.prog.codeEnd.toNat + 1) / 2 * 2 := by
    rw [htrap, toNat_trapOf hlt]
  have hword : (m.prog.trap / bytesPerWord).toNat = (m.prog.codeEnd.toNat + 1) / 2 := by
    rw [htrap, toNat_trapOf_div hlt]
  have hread : wordUp (m.setUp symbol).avr.data ((m.setUp symbol).avr.sp + 1)
      m.prog.part.addressSize.toNat = _ := wordUp_enterCall hroom
  have hvalue : value 256 (fun i => (returnByte (m.prog.trap / bytesPerWord) i).toNat)
      m.prog.part.addressSize.toNat % 2 ^ 32 = (m.prog.codeEnd.toNat + 1) / 2 := by
    rw [value_returnByte (hword ▸ hsize), hword]
  have hstack := stackPtr_setUp hroom symbol
  refine ⟨?_, ?_, fun hfour => ?_, ?_, ?_⟩
  · rw [htrap]
    exact isLeast_trapOf hlt
  · rw [← UInt32.toNat_inj, toNat_popAddress, hread, htrapNat]
    omega
  · have hfour' : m.prog.part.addressSize.toNat ≤ 4 := hfour
    rw [hstack, hread, htrapNat, value_returnByte_of_le _ hfour', hword, Nat.mod_eq_of_lt hsize]
    omega
  · rw [hstack]
    exact toNat_sp_enterCall hroom
  · intro addr hspl hsph hne
    exact (enterCall_data m.prog _ m.avr hspl hsph).trans (pushUpTo_of_ne _ _ _ hne)

/-- Four words of code on an ATmega328P: the trap is byte 8, and word 4 goes on the stack. -/
theorem setUp_decodes_turns :
    Isa.turns.prog.trap = 8 ∧ Decodes Isa.turns (Isa.turns.setUp "f")
      ∧ (Isa.turns.setUp "f").avr.data 0x8FF = 4 ∧ (Isa.turns.setUp "f").avr.data 0x8FE = 0 := by
  have hload : Mcu.load Isa.simavr Isa.turnsFiles "app.elf" 16000000 = .ok Isa.turns :=
    Isa.load_eq_boot Isa.turnsFiles _ _ rfl
  have hflash : Isa.turns.prog.part.Addressable := by
    unfold Part.Addressable
    decide +kernel
  have hfit : Isa.turns.prog.FitsFlash := by
    unfold Program.FitsFlash
    decide +kernel
  have hroom : Isa.turns.prog.part.HasRoom := by
    unfold Part.HasRoom
    decide +kernel
  refine ⟨by decide +kernel, ?_, by decide +kernel, by decide +kernel⟩
  exact setUp_decodes hload rfl hflash hfit (by decide +kernel) hroom "f"

end Avrsim
