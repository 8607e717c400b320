import Avrsim.Isa
import Avrsim.Properties.CallSetup

/-!
# Register pairs

A pair is a register and the next one. The number of the next one is narrowed to eight bits before
it is checked, so after register number 255, which does not exist, comes register 0, which does.

* `PairAccess` — the pair functions touch their pair and nothing else
* `pairAccess_iff` — for which register numbers they do
-/

namespace Avrsim

variable {ι : Type}

/-- The registers of the pair at `low` that exist. -/
def InPair (low : UInt8) (addr : UInt16) : Prop :=
  addr.toNat < registerCount.toNat ∧ (addr.toNat = low.toNat ∨ addr.toNat = low.toNat + 1)

/--
Writing the pair at `low` changes none but its registers, and nothing at all when there is no such
register; it reads back what was written when both exist; and reading it depends on its registers
alone.
-/
structure PairAccess (low : UInt8) : Prop where
  frame : ∀ {ι : Type} (c : Core ι) (value : UInt16) (addr : UInt16), ¬ InPair low addr →
    (c.setRegPair low value).data addr = c.data addr
  outside : registerCount ≤ low → ∀ {ι : Type} (c : Core ι) (value : UInt16),
    c.setRegPair low value = c
  readBack : low ≤ 30 → ∀ {ι : Type} (c : Core ι) (value : UInt16),
    (c.setRegPair low value).regPair low = value
  depends : ∀ {ι : Type} (c c' : Core ι), (∀ addr, InPair low addr → c.data addr = c'.data addr) →
    c.regPair low = c'.regPair low

/-! ## One register -/

namespace Core

variable (c : Core ι)

theorem setReg_of_le {index : UInt8} (h : registerCount ≤ index) (value : UInt8) :
    c.setReg index value = c := if_neg (UInt8.not_lt.mpr h)

theorem reg_of_le {index : UInt8} (h : registerCount ≤ index) : c.reg index = 0 :=
  if_neg (UInt8.not_lt.mpr h)

theorem setReg_data_of_ne {index : UInt8} {addr : UInt16} (h : addr ≠ index.toUInt16)
    (value : UInt8) : (c.setReg index value).data addr = c.data addr := by
  unfold setReg
  split
  · exact c.write_data_of_ne h value
  · rfl

theorem reg_setReg_self {index : UInt8} (h : index < registerCount) (value : UInt8) :
    (c.setReg index value).reg index = value := by
  unfold reg setReg
  rw [if_pos h, if_pos h, write_data_self]

theorem reg_setReg_of_ne {index index' : UInt8} (h : index ≠ index') (value : UInt8) :
    (c.setReg index' value).reg index = c.reg index := by
  have hne : index.toUInt16 ≠ index'.toUInt16 := by
    intro heq
    apply h
    have hnat := congrArg UInt16.toNat heq
    rw [UInt8.toNat_toUInt16, UInt8.toNat_toUInt16] at hnat
    exact UInt8.toNat_inj.mp hnat
  unfold reg
  rw [setReg_data_of_ne c hne]

end Core

/-! ## The next register -/

theorem toNat_succ {low : UInt8} (h : low ≠ 255) : (low + 1).toNat = low.toNat + 1 := by
  have hlt := low.toNat_lt
  have hne : low.toNat ≠ 255 := fun heq => h (UInt8.toNat_inj.mp heq)
  rw [UInt8.toNat_add, UInt8.toNat_one]
  omega

section

variable {low : UInt8} (h : low ≠ 255)

include h

/-- A register that exists and is one of the two is in the pair. -/
theorem inPair_of_lt {index : UInt8} (hindex : index = low ∨ index = low + 1)
    (hlt : index < registerCount) : InPair low index.toUInt16 := by
  have hnext := toNat_succ h
  refine ⟨?_, ?_⟩
  · rw [UInt8.toNat_toUInt16]
    exact hlt
  · rw [UInt8.toNat_toUInt16]
    rcases hindex with rfl | rfl
    · exact Or.inl rfl
    · exact Or.inr hnext

theorem setReg_data_of_not_inPair (c : Core ι) {index : UInt8}
    (hindex : index = low ∨ index = low + 1) (value : UInt8) {addr : UInt16}
    (haddr : ¬ InPair low addr) : (c.setReg index value).data addr = c.data addr := by
  by_cases hlt : index < registerCount
  · refine c.setReg_data_of_ne ?_ value
    rintro rfl
    exact haddr (inPair_of_lt h hindex hlt)
  · rw [c.setReg_of_le (UInt8.not_lt.mp hlt)]

theorem reg_congr {c c' : Core ι} (hdata : ∀ addr, InPair low addr → c.data addr = c'.data addr)
    {index : UInt8} (hindex : index = low ∨ index = low + 1) : c.reg index = c'.reg index := by
  by_cases hlt : index < registerCount
  · unfold Core.reg
    rw [if_pos hlt, if_pos hlt]
    exact hdata _ (inPair_of_lt h hindex hlt)
  · rw [c.reg_of_le (UInt8.not_lt.mp hlt), c'.reg_of_le (UInt8.not_lt.mp hlt)]

theorem setRegPair_of_le (hle : registerCount ≤ low) (c : Core ι) (value : UInt16) :
    c.setRegPair low value = c := by
  have hle' : registerCount ≤ low + 1 := by
    have hnat : registerCount.toNat ≤ low.toNat := hle
    rw [UInt8.le_iff_toNat_le, toNat_succ h]
    omega
  unfold Core.setRegPair
  simp only [c.setReg_of_le hle, c.setReg_of_le hle']

theorem regPair_setRegPair (hle : low ≤ 30) (c : Core ι) (value : UInt16) :
    (c.setRegPair low value).regPair low = value := by
  have hnat : low.toNat ≤ 30 := hle
  have hnext := toNat_succ h
  have hcount : registerCount.toNat = 32 := rfl
  have hlow : low < registerCount := by
    rw [UInt8.lt_iff_toNat_lt]
    omega
  have hhigh : low + 1 < registerCount := by
    rw [UInt8.lt_iff_toNat_lt]
    omega
  have hne : low ≠ low + 1 := by
    intro heq
    have hself := congrArg UInt8.toNat heq
    omega
  unfold Core.regPair Core.setRegPair
  rw [Core.reg_setReg_of_ne _ hne, Core.reg_setReg_self _ hlow, Core.reg_setReg_self _ hhigh]
  exact lowByte_or_highByte value

theorem pairAccess_of_ne : PairAccess low where
  frame c value addr haddr := by
    unfold Core.setRegPair
    rw [setReg_data_of_not_inPair h _ (Or.inr rfl) _ haddr,
      setReg_data_of_not_inPair h _ (Or.inl rfl) _ haddr]
  outside hle _ c value := setRegPair_of_le h hle c value
  readBack hle _ c value := regPair_setRegPair h hle c value
  depends c c' hdata := by
    unfold Core.regPair
    rw [reg_congr h hdata (Or.inl rfl), reg_congr h hdata (Or.inr rfl)]

end

/-- The register after number 255 is register 0. -/
theorem not_pairAccess_last : ¬ PairAccess 255 := by
  intro h
  have houtside := h.outside (by decide) (Isa.resetCore fun _ => 0) 0x0100
  have hzero := congrArg (fun c : Core Unit => c.data 0) houtside
  revert hzero
  decide

/-- **The pair functions keep to their pair exactly when its number is not 255.** -/
theorem pairAccess_iff (low : UInt8) : PairAccess low ↔ low ≠ 255 := by
  constructor
  · rintro h rfl
    exact not_pairAccess_last h
  · exact pairAccess_of_ne

/-- Writing a pair that does not exist changes register 0, and reading it reads that register. -/
theorem not_pairAccess_zero :
    ((Isa.resetCore fun _ => 0).setRegPair 255 0x0100).data 0 = 1
      ∧ (((Isa.resetCore fun _ => 0).setRegPair 255 0x0100).regPair 255) = 0x0100
      ∧ ¬ ∀ low : UInt8, PairAccess low := by
  exact ⟨by decide, by decide, fun h => not_pairAccess_last (h 255)⟩

end Avrsim
