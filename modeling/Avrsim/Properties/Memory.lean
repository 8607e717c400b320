import Avrsim.Infra.Writes
import Avrsim.Isa
import Avrsim.Properties.Rearrangement

/-!
# Registers, memory and flags

Between two stretches of execution a test sees registers, memory and the flags as one store. The
registers are the bottom of memory, a pair is two of them, and the byte of the flags is written with
them but not the other way round.

* `Op.writes` — the bytes an operation writes
* `packSreg_setSreg` — the flags pack to the byte they were unpacked from
* `reads_last_write` — every read gives back the last write to where it reads
-/

namespace Avrsim

open Infra.Writes

variable {ι : Type}

/-! ## What an operation writes -/

/-- The byte that `setReg` writes: none when there is no such register. -/
def registerWrite (index value : UInt8) : List (UInt16 × UInt8) :=
  if index < registerCount then [(index.toUInt16, value)] else []

/-- The bytes of the data space that an operation writes, in order. -/
def Op.writes (ramend : UInt16) : Op → List (UInt16 × UInt8)
  | .setReg index value => registerWrite index value
  | .setRegPair low value =>
    registerWrite low (value &&& 0xFF).toUInt8 ++ registerWrite (low + 1) (value >>> 8).toUInt8
  | .setData addr value => if addr ≤ ramend then [(addr, value)] else []
  | .setSreg value => [(sregAddress, value)]
  | _ => []

/-- The flags that an operation sets. Writing to their byte in memory does not set them. -/
def Op.flags? : Op → Option UInt8
  | .setSreg value => some value
  | _ => none

theorem data_setReg (index value : UInt8) (c : Core ι) :
    (c.setReg index value).data = store c.data (registerWrite index value) := by
  unfold Core.setReg registerWrite
  split <;> rfl

theorem sreg_setReg (index value : UInt8) (c : Core ι) :
    (c.setReg index value).sreg = c.sreg := by
  unfold Core.setReg
  split <;> rfl

/-- What one operation does to the data space. -/
theorem data_coreAfter (sim : Simavr ι) (prog : Program) (c : Core ι) {op : Op} (hop : op.Quiet) :
    (coreAfter sim prog c op).data = store c.data (op.writes prog.part.ramend) := by
  unfold coreAfter
  rw [stepLoop_of_not_steps hop.1]
  cases op with
  | reset => exact absurd rfl hop.2
  | setReg index value => exact data_setReg index value c
  | setRegPair low value =>
    show ((c.setReg low _).setReg (low + 1) _).data = store c.data (_ ++ _)
    rw [data_setReg, data_setReg, store_append]
  | setData addr value =>
    show (c.setByte prog.part.ramend addr value).data = store c.data (if _ then _ else _)
    unfold Core.setByte
    split <;> rfl
  | _ => rfl

/-! ## Flags -/

/-- The flags as `setSreg` unpacks them. -/
def unpacked (value : UInt8) (bit : Fin 8) : UInt8 := (value >>> UInt8.ofNat bit.val) &&& 1

/-- **Flags pack to the byte they were unpacked from.** -/
theorem packSreg_of_unpacked {c : Core ι} {value : UInt8} (h : c.sreg = unpacked value) :
    c.packSreg = value := by
  have hall : ∀ n : Fin 256, (List.finRange 8).foldl
      (fun packed bit =>
        let mask := 1 <<< UInt8.ofNat bit.val
        if 0 != unpacked (UInt8.ofNat n.val) bit then packed ||| mask else packed)
      0 = UInt8.ofNat n.val := by decide +kernel
  have hvalue := hall ⟨value.toNat, value.toNat_lt⟩
  rw [UInt8.ofNat_toNat] at hvalue
  unfold Core.packSreg
  rw [h]
  exact hvalue

/-- The global interrupt enable is the highest bit. -/
theorem unpacked_globalInterruptBit (value : UInt8) :
    (0 != unpacked value globalInterruptBit) = decide (128 ≤ value) := by
  have hall : ∀ n : Fin 256, (0 != unpacked (UInt8.ofNat n.val) globalInterruptBit)
      = decide (128 ≤ UInt8.ofNat n.val) := by decide +kernel
  have hvalue := hall ⟨value.toNat, value.toNat_lt⟩
  rw [UInt8.ofNat_toNat] at hvalue
  exact hvalue

/-- What one operation does to the flags. -/
theorem sreg_coreAfter (sim : Simavr ι) (prog : Program) (c : Core ι) {op : Op} (hop : op.Quiet) :
    (coreAfter sim prog c op).sreg = (op.flags?.map unpacked).getD c.sreg := by
  unfold coreAfter
  rw [stepLoop_of_not_steps hop.1]
  cases op with
  | reset => exact absurd rfl hop.2
  | setReg index value => exact sreg_setReg index value c
  | setRegPair low value => exact (sreg_setReg (low + 1) _ _).trans (sreg_setReg low _ c)
  | setData addr value =>
    show (c.setByte prog.part.ramend addr value).sreg = c.sreg
    unfold Core.setByte
    split <;> rfl
  | _ => rfl

/-! ## Runs -/

/-- The flags that some operations set last. -/
def lastFlags (ops : List Op) : Option UInt8 := (ops.filterMap Op.flags?).getLast?

/-- The core after some operations that do not step: its data space, and its flags. -/
theorem foldl_coreAfter (sim : Simavr ι) (prog : Program) {ops : List Op} (c : Core ι)
    (hquiet : ∀ op ∈ ops, op.Quiet) :
    (ops.foldl (coreAfter sim prog) c).data
        = store c.data (ops.flatMap (Op.writes prog.part.ramend))
      ∧ (ops.foldl (coreAfter sim prog) c).sreg = ((lastFlags ops).map unpacked).getD c.sreg := by
  induction ops generalizing c with
  | nil => exact ⟨rfl, rfl⟩
  | cons op ops ih =>
    have hop := hquiet op List.mem_cons_self
    obtain ⟨hdata, hsreg⟩ := ih (coreAfter sim prog c op) fun op hop =>
      hquiet op (List.mem_cons_of_mem _ hop)
    rw [List.foldl_cons, hdata, hsreg, data_coreAfter sim prog c hop, sreg_coreAfter sim prog c hop,
      List.flatMap_cons, store_append]
    refine ⟨rfl, ?_⟩
    unfold lastFlags
    cases hflags : op.flags? with
    | none => rw [List.filterMap_cons_none hflags, Option.map_none, Option.getD_none]
    | some value =>
      rw [List.filterMap_cons_some hflags, List.getLast?_cons]
      cases (ops.filterMap Op.flags?).getLast? <;> rfl

/--
**Every read gives back the last write to where it reads.** After any operations that neither step
nor reset the core, a byte of RAM and a register hold the last value written to that address by
whichever of the functions, or what they held before; addresses past the end of RAM and registers
that do not exist read 0 whatever was written to them; and the flags, with the global interrupt
enable, are those that `setSreg` set last, whatever was written to their byte in memory.
-/
theorem reads_last_write (sim : Simavr ι) (m : Mcu ι) {ops : List Op}
    (hquiet : ∀ op ∈ ops, op.Quiet) :
    (∀ addr, (runOps sim m ops).data addr = if addr ≤ m.prog.part.ramend then
        (lastWrite (ops.flatMap (Op.writes m.prog.part.ramend)) addr).getD (m.data addr) else 0)
      ∧ (∀ index, (runOps sim m ops).reg index = if index < registerCount then
        (lastWrite (ops.flatMap (Op.writes m.prog.part.ramend)) index.toUInt16).getD (m.reg index)
        else 0)
      ∧ (runOps sim m ops).sreg = (lastFlags ops).getD m.sreg
      ∧ (runOps sim m ops).interruptsEnabled
        = ((lastFlags ops).map fun value => decide (128 ≤ value)).getD m.interruptsEnabled := by
  obtain ⟨hdata, hsreg⟩ := foldl_coreAfter sim m.prog m.avr hquiet
  rw [← runOps_avr] at hdata hsreg
  refine ⟨fun addr => ?_, fun index => ?_, ?_, ?_⟩
  · unfold Mcu.data Core.byte
    rw [runOps_prog, hdata, store_eq]
    split <;> rfl
  · unfold Mcu.reg Core.reg
    rw [hdata, store_eq]
    split <;> rfl
  · show (runOps sim m ops).avr.packSreg = _
    cases hflags : lastFlags ops with
    | none =>
      rw [hflags] at hsreg
      unfold Core.packSreg
      rw [hsreg]
      rfl
    | some value =>
      rw [hflags] at hsreg
      exact packSreg_of_unpacked hsreg
  · unfold Mcu.interruptsEnabled
    rw [hsreg]
    cases lastFlags ops with
    | none => rfl
    | some value => exact unpacked_globalInterruptBit value

/-- A pair, the byte of its second register in memory, the flags, and their byte in memory. -/
theorem reads_last_write_flags :
    (runOps Isa.simavr Isa.turns [.setRegPair 24 0x1234, .setData 25 7, .setSreg 0x80,
        .setData sregAddress 1, .setReg 32 9]).reg 25 = 7
      ∧ (runOps Isa.simavr Isa.turns [.setRegPair 24 0x1234, .setData 25 7, .setSreg 0x80,
        .setData sregAddress 1, .setReg 32 9]).sreg = 0x80 := by
  have hquiet : ∀ op ∈ [Op.setRegPair 24 0x1234, .setData 25 7, .setSreg 0x80,
      .setData sregAddress 1, .setReg 32 9], op.Quiet := by
    intro op hop
    simp only [List.mem_cons, List.not_mem_nil, or_false] at hop
    rcases hop with rfl | rfl | rfl | rfl | rfl <;> exact ⟨rfl, by decide⟩
  obtain ⟨-, hreg, hsreg, -⟩ := reads_last_write Isa.simavr Isa.turns hquiet
  exact ⟨(hreg 25).trans (by decide +kernel), hsreg.trans rfl⟩

end Avrsim
