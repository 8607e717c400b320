import Avrsim.Properties.Arrival

/-!
# Setting up a call

What `call` does before its first instruction, and what follows from it: whatever the last call
left behind is overwritten, and the stack pointer is one return address below RAMEND. The first
sample is taken only after an instruction has run, so the watermark need not have seen it there.

* `pushReturn_congr` and `sp_enterCall` — the bytes and the stack pointer that `call` writes
* `call_of_sameForCall` — a call does not depend on what it overwrites
* `watermarkCovers_iff` — when the watermark includes the return address
-/

namespace Avrsim

open Infra.Loop

variable {ι : Type}

/-! ## The stack that `call` sets up -/

theorem toNat_lowByte (s : UInt16) : (s &&& 0xFF).toUInt8.toUInt16.toNat = s.toNat % 256 := by
  have hmask : s.toNat % 256 &&& 255 = s.toNat % 256 % 256 :=
    Nat.and_two_pow_sub_one_eq_mod (s.toNat % 256) 8
  simp [hmask]

theorem toNat_highByte (s : UInt16) :
    ((s >>> 8).toUInt8.toUInt16 <<< 8).toNat = s.toNat / 256 * 256 := by
  have hlt := s.toNat_lt
  simp [Nat.shiftRight_eq_div_pow, Nat.shiftLeft_eq]
  omega

/-- The two bytes of a stack pointer, put together again. -/
theorem lowByte_or_highByte (s : UInt16) :
    (s &&& 0xFF).toUInt8.toUInt16 ||| ((s >>> 8).toUInt8.toUInt16 <<< 8) = s := by
  have hdisjoint : s.toNat / 256 * 256 + s.toNat % 256 = s.toNat / 256 * 256 ||| s.toNat % 256 := by
    have h := Nat.shiftLeft_add_eq_or_of_lt (b := s.toNat % 256) (i := 8)
      (Nat.mod_lt _ (by decide)) (s.toNat / 256)
    rwa [Nat.shiftLeft_eq] at h
  apply UInt16.toNat_inj.mp
  rw [UInt16.toNat_or, toNat_lowByte, toNat_highByte, Nat.or_comm, ← hdisjoint]
  exact Nat.div_add_mod' s.toNat 256

theorem sp_setSp (c : Core ι) (s : UInt16) : (Isa.setSp c s).sp = s := by
  have hne : splAddress ≠ sphAddress := by decide
  unfold Core.sp Isa.setSp
  rw [Core.write_data_of_ne _ hne, Core.write_data_self, Core.write_data_self, lowByte_or_highByte]

/-! ## Pushing the return address -/

/-- Push byte `byte` of the return address. -/
def pushByte (returnWord : UInt32) (st : (UInt16 → UInt8) × UInt16) (byte : Nat) :
    (UInt16 → UInt8) × UInt16 :=
  (Function.update st.1 st.2
    ((returnWord >>> (8 * UInt8.ofNat byte).toUInt32) &&& 0xFF).toUInt8, st.2 - 1)

section

variable (returnWord : UInt32) (data : UInt16 → UInt8) (stack : UInt16)

/-- The data space and the stack pointer after the first `n` bytes. -/
def pushUpTo (n : Nat) : (UInt16 → UInt8) × UInt16 :=
  (List.range n).foldl (pushByte returnWord) (data, stack)

theorem pushReturn_eq (addressSize : UInt8) :
    pushReturn returnWord addressSize data stack
      = pushUpTo returnWord data stack addressSize.toNat := rfl

theorem pushUpTo_succ (n : Nat) :
    pushUpTo returnWord data stack (n + 1)
      = pushByte returnWord (pushUpTo returnWord data stack n) n := by
  unfold pushUpTo
  rw [List.range_succ, List.foldl_append, List.foldl_cons, List.foldl_nil]

theorem pushUpTo_succ_fst (n : Nat) (addr : UInt16) :
    (pushUpTo returnWord data stack (n + 1)).1 addr
      = if addr = (pushUpTo returnWord data stack n).2 then
          ((returnWord >>> (8 * UInt8.ofNat n).toUInt32) &&& 0xFF).toUInt8
        else (pushUpTo returnWord data stack n).1 addr := by
  rw [pushUpTo_succ]
  exact Function.update_apply _ _ _ _

/-- Every byte takes the pointer down by one. -/
theorem pushUpTo_snd (n : Nat) :
    (pushUpTo returnWord data stack n).2 = stack - UInt16.ofNat n := by
  induction n with
  | zero => simp [pushUpTo]
  | succ n ih =>
    rw [pushUpTo_succ, pushByte, ih, UInt16.ofNat_add]
    grind

theorem pushReturn_snd (addressSize : UInt8) :
    (pushReturn returnWord addressSize data stack).2 = stack - addressSize.toUInt16 := by
  have hsize : UInt16.ofNat addressSize.toNat = addressSize.toUInt16 := by simp
  rw [pushReturn_eq, pushUpTo_snd, hsize]

end

/-- Two data spaces that agree but for the pushed bytes are the same after the push. -/
theorem pushUpTo_congr (returnWord : UInt32) (stack : UInt16) {data data' : UInt16 → UInt8}
    {addr : UInt16} : ∀ {n : Nat}, (data addr = data' addr ∨ ∃ i < n, addr = stack - UInt16.ofNat i) →
      (pushUpTo returnWord data stack n).1 addr = (pushUpTo returnWord data' stack n).1 addr
  | 0, h => by
    rcases h with h | ⟨i, hi, -⟩
    · exact h
    · omega
  | n + 1, h => by
    rw [pushUpTo_succ_fst, pushUpTo_succ_fst, pushUpTo_snd, pushUpTo_snd]
    by_cases haddr : addr = stack - UInt16.ofNat n
    · rw [if_pos haddr, if_pos haddr]
    · rw [if_neg haddr, if_neg haddr]
      refine pushUpTo_congr returnWord stack (h.imp_right ?_)
      rintro ⟨i, hi, rfl⟩
      have hne : i ≠ n := fun heq => haddr (heq ▸ rfl)
      exact ⟨i, by omega, rfl⟩

theorem pushReturn_congr (returnWord : UInt32) (stack : UInt16) {data data' : UInt16 → UInt8}
    {addressSize : UInt8} {addr : UInt16}
    (h : data addr = data' addr ∨ ∃ i < addressSize.toNat, addr = stack - UInt16.ofNat i) :
    (pushReturn returnWord addressSize data stack).1 addr
      = (pushReturn returnWord addressSize data' stack).1 addr :=
  pushUpTo_congr returnWord stack h

/-- `call` leaves the pointer one return address below RAMEND. -/
theorem sp_enterCall (prog : Program) (entry : UInt32) (c : Core ι) :
    (prog.enterCall entry c).sp = prog.part.ramend - prog.part.addressSize.toUInt16 := by
  have hset : (prog.enterCall entry c).sp
      = (pushReturn (prog.trap / bytesPerWord) prog.part.addressSize c.data prog.part.ramend).2 :=
    sp_setSp { c with data :=
      (pushReturn (prog.trap / bytesPerWord) prog.part.addressSize c.data prog.part.ramend).1 } _
  rw [hset, pushReturn_snd]

/-! ## What the last call left behind -/

/--
Two cores that are equal but for what a call leaves behind and `call` overwrites: the program
counter, the cpu state, the stack pointer and the top `addressSize` bytes of RAM.
-/
structure SameForCall (part : Part) (c c' : Core ι) : Prop where
  rest : c' = { c with pc := c'.pc, state := c'.state, data := c'.data }
  data : ∀ addr, addr ≠ splAddress → addr ≠ sphAddress →
    (∀ i < part.addressSize.toNat, addr ≠ part.ramend - UInt16.ofNat i) →
    c.data addr = c'.data addr

theorem enterCall_data_congr (prog : Program) (entry : UInt32) {c c' : Core ι}
    (h : SameForCall prog.part c c') :
    (prog.enterCall entry c).data = (prog.enterCall entry c').data := by
  funext addr
  by_cases hsph : addr = sphAddress
  · subst hsph
    simp only [Program.enterCall, Core.write_data_self, pushReturn_snd]
  by_cases hspl : addr = splAddress
  · subst hspl
    simp only [Program.enterCall, Core.write_data_of_ne _ hsph, Core.write_data_self,
      pushReturn_snd]
  · simp only [Program.enterCall, Core.write_data_of_ne _ hsph, Core.write_data_of_ne _ hspl]
    -- what is left of the old data space is the same, or one of the pushed bytes
    refine pushReturn_congr _ _ ?_
    by_cases hpushed : ∃ i < prog.part.addressSize.toNat, addr = prog.part.ramend - UInt16.ofNat i
    · exact Or.inr hpushed
    · exact Or.inl (h.data addr hspl hsph fun i hi heq => hpushed ⟨i, hi, heq⟩)

theorem enterCall_of_sameForCall (prog : Program) (entry : UInt32) {c c' : Core ι}
    (h : SameForCall prog.part c c') : prog.enterCall entry c = prog.enterCall entry c' := by
  have hdata := enterCall_data_congr prog entry h
  have heq : ∀ c : Core ι, prog.enterCall entry c
      = { c with pc := entry, state := .running, data := (prog.enterCall entry c).data } :=
    fun _ => rfl
  rw [heq c, heq c', hdata, h.rest]

/--
**The last call cannot poison the next.** On two machines that have recorded the same, and whose
cores differ at most in what `call` overwrites, it has the same result and leaves the same
machine: core, traces, stack watches, watermark and pin logs.
-/
theorem call_of_sameForCall (sim : Simavr ι) {m m' : Mcu ι} (hm : m' = { m with avr := m'.avr })
    (h : SameForCall m.prog.part m.avr m'.avr) {symbol : String}
    (hdef : m.address symbol ≠ noAddress) (cycleBudget : UInt64) :
    m.call sim symbol cycleBudget = m'.call sim symbol cycleBudget := by
  have hprog : m'.prog = m.prog := by rw [hm]
  have hdef' : m'.address symbol ≠ noAddress := by
    unfold Mcu.address at hdef ⊢
    rw [hprog]
    exact hdef
  have hrun : ∀ l : StepLoop ι, m'.runLoop sim l = m.runLoop sim l := by
    intro l
    rw [hm]
    rfl
  rw [Mcu.call_eq sim cycleBudget hdef, Mcu.call_eq sim cycleBudget hdef', hprog, hrun]
  unfold Mcu.address
  rw [hprog, enterCall_of_sameForCall m.prog _ h]

/-- A machine that crashed at byte 6 with its stack pointer at 0. -/
def crashed (m : Mcu ι) : Mcu ι :=
  { m with avr := Isa.setSp { m.avr with pc := 6, state := .crashed } 0 }

/-- It is called like a fresh one. -/
theorem call_of_sameForCall_crashed :
    (Isa.boot [0x9508] [⟨"f", 0⟩]).call Isa.simavr "f" 5
      = (crashed (Isa.boot [0x9508] [⟨"f", 0⟩])).call Isa.simavr "f" 5 := by
  have hdef : (Isa.boot [0x9508] [⟨"f", 0⟩]).address "f" ≠ noAddress := by decide +kernel
  have hcrashed : ∀ m : Mcu Unit, m.address "f" ≠ noAddress →
      m.call Isa.simavr "f" 5 = (crashed m).call Isa.simavr "f" 5 := by
    intro m hdef'
    have havr : crashed m = { m with avr := (crashed m).avr } := rfl
    refine call_of_sameForCall Isa.simavr havr ⟨rfl, fun addr hspl hsph _ => ?_⟩ hdef' 5
    simp only [crashed, Isa.setSp, Core.write_data_of_ne _ hsph, Core.write_data_of_ne _ hspl]
  exact hcrashed (Isa.boot [0x9508] [⟨"f", 0⟩]) hdef

/-! ## The deepest moment of a call -/

/-- The watermark after some instructions is at `x` or below when it was, or one of them was. -/
theorem lowestStack_iterate_le_iff (sim : Simavr ι) (m : Mcu ι) (x : UInt16) : ∀ k : Nat,
    ((Mcu.tick sim)^[k] m).lowestStack ≤ x
      ↔ m.lowestStack ≤ x ∨ ∃ j < k, (coreAt sim m.avr (j + 1)).sp ≤ x
  | 0 => by simp
  | k + 1 => by
    have hnext : sim.next ((Mcu.tick sim)^[k] m).avr = coreAt sim m.avr (k + 1) := by
      rw [Mcu.iterate_tick_avr, coreAt_succ]
      rfl
    have hmin : ∀ p q : UInt16, (if p < q then p else q) ≤ x ↔ q ≤ x ∨ p ≤ x := by
      intro p q
      simp only [UInt16.le_iff_toNat_le, UInt16.lt_iff_toNat_lt]
      split <;> omega
    rw [Function.iterate_succ_apply', Mcu.tick_lowestStack, hnext, hmin,
      lowestStack_iterate_le_iff sim m x k, or_assoc, Nat.exists_lt_succ_right]

/-- The loop of `call` and `runUntil` from `c` gets to make instruction `j`, counted from 0. -/
def Executes (sim : Simavr ι) (stop : UInt32) (cycleBudget : UInt64) (c : Core ι) (j : Nat) :
    Prop :=
  j < cycleBudget.toNat ∧ ∀ i ≤ j, (coreAt sim c i).cycle - c.cycle < cycleBudget
    ∧ (coreAt sim c i).pc ≠ stop ∧ (coreAt sim c i).live = true

theorem executes_iff (sim : Simavr ι) (stop : UInt32) (cycleBudget : UInt64) (c : Core ι)
    (j : Nat) :
    Executes sim stop cycleBudget c j ↔ j < (untilLoop stop cycleBudget c).steps sim := by
  constructor
  · rintro ⟨hj, h⟩
    exact le_passes hj fun i hi => untilGo_iff.mpr (h i (Nat.le_of_lt_succ hi))
  · intro hj
    refine ⟨Nat.lt_of_lt_of_le hj (steps_untilLoop_le sim stop cycleBudget c), fun i hi => ?_⟩
    exact before_untilLoop sim stop cycleBudget c (Nat.lt_of_le_of_lt hi hj)

/-- The watermark includes the return address that `call` pushed. -/
def WatermarkCovers (m : Mcu ι) : Prop :=
  m.lowestStackPtr ≤ m.prog.part.ramend - m.prog.part.addressSize.toUInt16

/--
**The watermark includes the return address exactly when it did before or some instruction of the
call leaves the stack pointer there.** The moment at which `call` itself put it there is not
sampled: a function whose instructions all leave it higher, such as a single `ret`, is not seen
to have used the two bytes.
-/
theorem watermarkCovers_iff (sim : Simavr ι) {m : Mcu ι} {symbol : String}
    (hdef : m.address symbol ≠ noAddress) (cycleBudget : UInt64) :
    WatermarkCovers (m.call sim symbol cycleBudget).2
      ↔ WatermarkCovers m
        ∨ ∃ j, Executes sim m.prog.trap cycleBudget (m.prog.enterCall (m.address symbol) m.avr) j
          ∧ (coreAt sim (m.prog.enterCall (m.address symbol) m.avr) (j + 1)).sp
              ≤ (m.prog.enterCall (m.address symbol) m.avr).sp := by
  rw [Mcu.call_eq sim cycleBudget hdef, sp_enterCall]
  simp only [executes_iff]
  unfold WatermarkCovers Mcu.lowestStackPtr
  rw [Mcu.runLoop_prog, Mcu.runLoop_eq_iterate, lowestStack_iterate_le_iff]
  rfl

/-- A function that pushes a register is seen. -/
theorem watermarkCovers_iff_push :
    WatermarkCovers
      ((Isa.boot [0x920F, 0x900F, 0x9508] [⟨"f", 0⟩]).call Isa.simavr "f" 100).2 := by
  have hdef : (Isa.boot [0x920F, 0x900F, 0x9508] [⟨"f", 0⟩]).address "f" ≠ noAddress := by
    decide +kernel
  refine (watermarkCovers_iff Isa.simavr hdef 100).mpr (Or.inr ⟨0, ⟨by decide, ?_⟩, ?_⟩)
  · intro i hi
    obtain rfl := Nat.le_zero.mp hi
    decide +kernel
  · decide +kernel

/-- A function that is a single `ret` returns, and leaves the watermark at RAMEND. -/
theorem not_watermarkCovers_ret :
    ((Isa.boot [0x9508] [⟨"f", 0⟩]).call Isa.simavr "f" 5).1 = ⟨true, 4⟩
      ∧ (Isa.boot [0x9508] [⟨"f", 0⟩]).address "f" ≠ (Isa.boot [0x9508] [⟨"f", 0⟩]).prog.trap
      ∧ ((Isa.boot [0x9508] [⟨"f", 0⟩]).call Isa.simavr "f" 5).2.lowestStackPtr = 0x8FF
      ∧ ¬ WatermarkCovers ((Isa.boot [0x9508] [⟨"f", 0⟩]).call Isa.simavr "f" 5).2 := by
  refine ⟨by decide +kernel, by decide +kernel, by decide +kernel, ?_⟩
  unfold WatermarkCovers
  decide +kernel

end Avrsim
