import Avrsim.Properties.CallSetup

/-!
# Returns

`call` takes control arriving at the trap address for a return. Under AVR semantics that is a
balanced return, one that comes back through the address `call` pushed and leaves the stack
pointer at RAMEND, exactly when the instruction that gets there is a `ret` with the stack pointer
where `call` left it. Falling through the end of the program, jumping there and a label at the
very end all look the same.

* `AvrSemantics` — what is asked of the core
* `returned_of_sequential` — running off the end is reported as a return
* `balancedReturn_iff` — when a reported return is a balanced one
-/

namespace Avrsim

open Infra.Loop

variable {ι : Type}

/-! ## AVR semantics -/

/-- What one `avr_run` does to control. An instruction that is interrupted is `other`. -/
inductive Flow where
  /-- An instruction of `size` bytes that goes on to the next. -/
  | sequential (size : UInt32)
  | ret
  | other
deriving DecidableEq, Repr

/--
A core that runs the AVR instruction set, as far as returns go. `flow` tells what the core is
about to do.
-/
structure AvrSemantics (sim : Simavr ι) (part : Part) (flow : Core ι → Flow) : Prop where
  sequential : ∀ {c size}, flow c = .sequential size → (sim.next c).pc = c.pc + size
  ret_pc : ∀ {c}, flow c = .ret → (sim.next c).pc = Isa.popAddress part c
  ret_sp : ∀ {c}, flow c = .ret → (sim.next c).sp = c.sp + part.addressSize.toUInt16

/-- What the fragment of `Isa` is about to do. -/
def Isa.flow (c : Core ι) : Flow :=
  match c.state with
  | .running =>
    match decode (fetch c) with
    | .nop | .push _ | .pop _ | .sleep => .sequential 2
    | .ret => .ret
    | .rjmp _ | .illegal => .other
  | _ => .other

/-- The fragment has AVR semantics. -/
theorem avrSemantics_simavr : AvrSemantics Isa.simavr Isa.atmega328p Isa.flow := by
  -- only a running core with a `ret` in front of it is about to return
  have hret : ∀ {c : Core Unit}, Isa.flow c = .ret →
      Isa.simavr.next c = Isa.execute Isa.atmega328p c .ret := by
    intro c h
    show Isa.step Isa.atmega328p c = _
    unfold Isa.flow at h
    unfold Isa.step
    cases hs : c.state <;> simp only [hs] at h <;> try cases h
    cases hd : Isa.decode (Isa.fetch c) <;> simp only [hd] at h <;> cases h
    rfl
  constructor
  · intro c size h
    show (Isa.step Isa.atmega328p c).pc = c.pc + size
    unfold Isa.flow at h
    unfold Isa.step
    cases hs : c.state <;> simp only [hs] at h <;> try cases h
    cases hd : Isa.decode (Isa.fetch c) <;> simp only [hd] at h <;> cases h <;> rfl
  · intro c h
    rw [hret h]
    rfl
  · intro c h
    rw [hret h]
    exact sp_setSp c _

/-! ## Arrivals that are reported -/

/-- The core first gets to `stop` after `k` instructions, with both bounds of the loop open. -/
def ArrivesWithin (sim : Simavr ι) (stop : UInt32) (cycleBudget : UInt64) (c : Core ι)
    (k : Nat) : Prop :=
  FirstReaches sim stop c k ∧ k < cycleBudget.toNat
    ∧ ∀ j ≤ k, (coreAt sim c j).cycle - c.cycle < cycleBudget

section

variable {sim : Simavr ι} {stop : UInt32} {cycleBudget : UInt64} {c : Core ι}

theorem arrivesWithin_of_returned
    (h : ((untilLoop stop cycleBudget c).report sim stop cycleBudget).returned = true) :
    ArrivesWithin sim stop cycleBudget c ((untilLoop stop cycleBudget c).steps sim) := by
  obtain ⟨⟨hlt, hopen⟩, -⟩ := (returned_untilLoop_iff sim stop cycleBudget c).mp h
  refine ⟨firstReaches_of_returned h, hlt, fun j hj => ?_⟩
  rcases Nat.lt_or_eq_of_le hj with hj | rfl
  · exact (before_untilLoop sim stop cycleBudget c hj).1
  · exact hopen

theorem ArrivesWithin.steps_eq {k : Nat} (h : ArrivesWithin sim stop cycleBudget c k) :
    (untilLoop stop cycleBudget c).steps sim = k :=
  steps_untilLoop_eq h.1 (Nat.le_of_lt h.2.1) fun j hj => h.2.2 j (Nat.le_of_lt hj)

theorem ArrivesWithin.returned {k : Nat} (h : ArrivesWithin sim stop cycleBudget c k) :
    ((untilLoop stop cycleBudget c).report sim stop cycleBudget).returned = true := by
  rw [returned_untilLoop_iff, h.steps_eq]
  exact ⟨⟨h.2.1, h.2.2 k (Nat.le_refl k)⟩, h.1.1.2⟩

end

/-! ## Balanced returns -/

variable {sim : Simavr ι} {flow : Core ι → Flow}

/--
A report of `call` is of a balanced return: the instruction that first got to the trap is a `ret`
that popped the trap address, and the stack pointer is back at RAMEND. `c` is the core as `call`
started it.
-/
def BalancedReturn (sim : Simavr ι) (flow : Core ι → Flow) (prog : Program) (c : Core ι)
    (result : Call × Mcu ι) : Prop :=
  result.1.returned = true →
    ∃ i, FirstReaches sim prog.trap c (i + 1) ∧ flow (coreAt sim c i) = .ret
      ∧ Isa.popAddress prog.part (coreAt sim c i) = prog.trap
      ∧ result.2.avr.sp = prog.part.ramend

/-- A sequential instruction that ends where the trap is gets reported as a return. -/
theorem returned_of_sequential {m : Mcu ι} (havr : AvrSemantics sim m.prog.part flow)
    {symbol : String} (hdef : m.address symbol ≠ noAddress) {cycleBudget : UInt64} {k : Nat}
    {size : UInt32} {c : Core ι} (hc : c = m.prog.enterCall (m.address symbol) m.avr)
    (hflow : flow (coreAt sim c k) = .sequential size)
    (hend : (coreAt sim c k).pc + size = m.prog.trap)
    (hbefore : ∀ j ≤ k, (coreAt sim c j).live = true ∧ (coreAt sim c j).pc ≠ m.prog.trap)
    (hk : k + 1 < cycleBudget.toNat)
    (hopen : ∀ j ≤ k + 1, (coreAt sim c j).cycle - c.cycle < cycleBudget) :
    (m.call sim symbol cycleBudget).1.returned = true := by
  have hpc : (coreAt sim c (k + 1)).pc = m.prog.trap := by
    rw [coreAt_succ, havr.sequential hflow, hend]
  have harrives : ArrivesWithin sim m.prog.trap cycleBudget c (k + 1) :=
    ⟨⟨⟨fun j hj => (hbefore j (by omega)).1, hpc⟩, fun j hj => (hbefore j (by omega)).2⟩, hk,
      hopen⟩
  rw [Mcu.call_eq sim cycleBudget hdef, ← hc]
  exact harrives.returned

/--
**A reported return is a balanced one exactly when a `ret` makes it.** That is: when the core
gets to the trap within both bounds, the instruction that takes it there is a `ret`, executed
with the stack pointer where `call` left it.
-/
theorem balancedReturn_iff {m : Mcu ι} (havr : AvrSemantics sim m.prog.part flow)
    {symbol : String} (hdef : m.address symbol ≠ noAddress) (cycleBudget : UInt64) :
    BalancedReturn sim flow m.prog (m.prog.enterCall (m.address symbol) m.avr)
        (m.call sim symbol cycleBudget)
      ↔ ∀ k, ArrivesWithin sim m.prog.trap cycleBudget
            (m.prog.enterCall (m.address symbol) m.avr) k →
          ∃ i, k = i + 1
            ∧ flow (coreAt sim (m.prog.enterCall (m.address symbol) m.avr) i) = .ret
            ∧ (coreAt sim (m.prog.enterCall (m.address symbol) m.avr) i).sp
                = (m.prog.enterCall (m.address symbol) m.avr).sp := by
  rw [Mcu.call_eq sim cycleBudget hdef]
  have hstart := sp_enterCall m.prog (m.address symbol) m.avr
  generalize m.prog.enterCall (m.address symbol) m.avr = c at hstart ⊢
  have hfinal : (m.runLoop sim (untilLoop m.prog.trap cycleBudget c)).avr
      = coreAt sim c ((untilLoop m.prog.trap cycleBudget c).steps sim) := by
    rw [Mcu.runLoop_avr, StepLoop.final_eq_coreAt]
    rfl
  constructor
  · intro h k harrives
    -- the arrival is reported, so the report speaks of this very instruction
    obtain ⟨i, hfirst, hflow, -, hsp⟩ := h harrives.returned
    have hk : k = i + 1 := harrives.1.unique hfirst
    refine ⟨i, hk, hflow, ?_⟩
    simp only [hfinal, harrives.steps_eq, hk, coreAt_succ, havr.ret_sp hflow] at hsp
    rw [hstart, ← hsp]
    grind
  · intro h hret
    have harrives := arrivesWithin_of_returned hret
    obtain ⟨i, hk, hflow, hsp⟩ := h _ harrives
    have hfirst : FirstReaches sim m.prog.trap c (i + 1) := hk ▸ harrives.1
    refine ⟨i, hfirst, hflow, ?_, ?_⟩
    · rw [← havr.ret_pc hflow, ← coreAt_succ]
      exact hfirst.1.2
    · simp only [hfinal, hk, coreAt_succ, havr.ret_sp hflow, hsp, hstart]
      grind

/-- A function that is a single `ret` returns balanced. -/
theorem balancedReturn_iff_ret :
    BalancedReturn Isa.simavr Isa.flow (Isa.boot [0x9508] [⟨"f", 0⟩]).prog retCore
      ((Isa.boot [0x9508] [⟨"f", 0⟩]).call Isa.simavr "f" 5) := by
  have hdef : (Isa.boot [0x9508] [⟨"f", 0⟩]).address "f" ≠ noAddress := by decide +kernel
  refine (balancedReturn_iff avrSemantics_simavr hdef 5).mpr fun k harrives => ?_
  refine ⟨0, harrives.1.unique firstReaches_retCore, ?_, rfl⟩
  decide +kernel

/-- One that ends in a `push` falls through to the trap, and the report is the same. -/
theorem not_balancedReturn_push :
    AvrSemantics Isa.simavr (Isa.boot [0x920F] [⟨"f", 0⟩]).prog.part Isa.flow
      ∧ ((Isa.boot [0x920F] [⟨"f", 0⟩]).call Isa.simavr "f" 100).1 = ⟨true, 2⟩
      ∧ ((Isa.boot [0x920F] [⟨"f", 0⟩]).call Isa.simavr "f" 100).2.stackPtr = 0x8FC
      ∧ ¬ BalancedReturn Isa.simavr Isa.flow (Isa.boot [0x920F] [⟨"f", 0⟩]).prog
          ((Isa.boot [0x920F] [⟨"f", 0⟩]).prog.enterCall 0 (Isa.boot [0x920F] [⟨"f", 0⟩]).avr)
          ((Isa.boot [0x920F] [⟨"f", 0⟩]).call Isa.simavr "f" 100) := by
  have hcall : ((Isa.boot [0x920F] [⟨"f", 0⟩]).call Isa.simavr "f" 100).1 = ⟨true, 2⟩ := by
    decide +kernel
  refine ⟨avrSemantics_simavr, hcall, by decide +kernel, fun h => ?_⟩
  obtain ⟨i, -, -, -, hsp⟩ := h (by rw [hcall])
  revert hsp
  decide +kernel

end Avrsim
