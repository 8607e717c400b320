import Avrsim.Properties.Arrival

/-!
# The cost of a call

A subroutine can be costed in two ways: by what `call` reports, and by the visit that its trace
records meanwhile. `call` moves the program counter itself and nothing is sampled before the
first instruction has run, so the visit starts one instruction late, if there is one.

* `traced_iterate_tick` — the entry of a traced symbol after a number of instructions
* `costsAgree_iff` — when the two costs agree
-/

namespace Avrsim

open Infra.Loop

variable {ι : Type}

/-! ## A traced function on its own -/

/-- The entry of a traced function after `k` instructions have been sampled. -/
def Traced.sampleUpTo (sim : Simavr ι) (c : Core ι) (item : Traced) : Nat → Traced
  | 0 => item
  | k + 1 =>
    (sampleUpTo sim c item k).sample (coreAt sim c (k + 1)).pc (coreAt sim c (k + 1)).cycle

theorem traced_iterate_tick (sim : Simavr ι) (m : Mcu ι) (symbol : String) : ∀ k : Nat,
    ((Mcu.tick sim)^[k] m).traced[symbol]?
      = m.traced[symbol]?.map fun item => item.sampleUpTo sim m.avr k
  | 0 => by simp [Traced.sampleUpTo]
  | k + 1 => by
    rw [Function.iterate_succ_apply', Mcu.tick_traced, Mcu.iterate_tick_avr,
      traced_iterate_tick sim m symbol k, Option.map_map]
    simp only [Traced.sampleUpTo, coreAt_succ]
    rfl

namespace Traced

variable {sim : Simavr ι} {c : Core ι} {item : Traced}

/-- A sample inside changes nothing when the one before it was inside too. -/
theorem sample_eq_self {pc : UInt32} (cycle : UInt64) (hin : item.inside = true)
    (hpc : item.contains pc = true) : item.sample pc cycle = item := by
  have hsame : item.sample pc cycle = { item with inside := true } := by simp [sample, hin, hpc]
  rw [hsame, ← hin]

theorem sampleUpTo_of_inside (hin : item.inside = true) : ∀ {k : Nat},
    (∀ j < k, item.contains (coreAt sim c (j + 1)).pc = true) → item.sampleUpTo sim c k = item
  | 0, _ => rfl
  | k + 1, h => by
    rw [sampleUpTo, sampleUpTo_of_inside hin fun j hj => h j (by omega)]
    exact sample_eq_self _ hin (h k (by omega))

theorem sample_log_of_leaves {pc : UInt32} (cycle : UInt64) (hin : item.inside = true)
    (hpc : item.contains pc = false) : (item.sample pc cycle).log = item.log.leave cycle := by
  simp [sample, hin, hpc]

/-- An entry with a visit just opened. -/
def entered (cycle : UInt64) (item : Traced) : Traced :=
  { item with inside := true, log := item.log.enter cycle }

@[simp] theorem entered_inside (cycle : UInt64) (item : Traced) :
    (item.entered cycle).inside = true := rfl

@[simp] theorem entered_contains (cycle : UInt64) (item : Traced) (pc : UInt32) :
    (item.entered cycle).contains pc = item.contains pc := rfl

/-- The first sample inside opens a visit, and nothing changes while control stays there. -/
theorem sampleUpTo_of_outside (hin : item.inside = false) : ∀ {k : Nat},
    (∀ j < k + 1, item.contains (coreAt sim c (j + 1)).pc = true) →
    item.sampleUpTo sim c (k + 1) = item.entered (coreAt sim c 1).cycle
  | 0, h => by
    rw [sampleUpTo, sampleUpTo]
    simp [sample, entered, hin, h 0 (by omega)]
  | k + 1, h => by
    rw [sampleUpTo, sampleUpTo_of_outside hin fun j hj => h j (by omega)]
    exact sample_eq_self _ rfl (h (k + 1) (by omega))

/-- Control leaves what it was inside: the log keeps its length. -/
theorem length_sample_of_inside (pc : UInt32) (cycle : UInt64) (hin : item.inside = true) :
    (item.sample pc cycle).log.visits.length = item.log.visits.length := by
  simp only [sample, hin]
  split
  · next h => simp at h
  · split
    · exact Trace.length_leave cycle item.log
    · rfl

end Traced

/-! ## The two costs -/

/--
The two costs of a call agree: it adds one visit to the log, which is complete, starts when `call`
placed control at the function and costs what `call` reports. `c` is the core as `call` started it.
-/
def CostsAgree (symbol : String) (item : Traced) (c : Core ι) (result : Call × Mcu ι) : Prop :=
  ∃ item' v, result.2.traced[symbol]? = some item'
    ∧ item'.log.visits = item.log.visits ++ [v]
    ∧ v.complete = true ∧ v.entry = c.cycle ∧ v.cycles = result.1.cycles

section

variable {sim : Simavr ι} {c : Core ι} {item : Traced} {stop : UInt32}

/-- A call whose entry is up already, or that ends with its first instruction, adds no visit. -/
theorem no_visit_of_inside {k : Nat} (hin : item.inside = true)
    (hstays : ∀ j < k, item.contains (coreAt sim c (j + 1)).pc = true) {v : Visit} :
    (item.sampleUpTo sim c (k + 1)).log.visits ≠ item.log.visits ++ [v] := by
  intro h
  have hlen := Traced.length_sample_of_inside (coreAt sim c (k + 1)).pc
    (coreAt sim c (k + 1)).cycle hin
  rw [Traced.sampleUpTo, Traced.sampleUpTo_of_inside hin hstays] at h
  rw [h, List.length_append, List.length_singleton] at hlen
  omega

/-- The log after a call that begins with the entry down and makes at least two instructions. -/
theorem visits_of_outside {k : Nat} (hin : item.inside = false)
    (hstays : ∀ j < k + 1, item.contains (coreAt sim c (j + 1)).pc = true) :
    (item.sampleUpTo sim c (k + 2)).log.visits
      = item.log.visits
        ++ [if item.contains (coreAt sim c (k + 2)).pc then
              ⟨(coreAt sim c 1).cycle, (coreAt sim c 1).cycle, 0, false⟩
            else
              ⟨(coreAt sim c 1).cycle, (coreAt sim c (k + 2)).cycle,
                (coreAt sim c (k + 2)).cycle - (coreAt sim c 1).cycle, true⟩] := by
  have hin' := Traced.entered_inside (coreAt sim c 1).cycle item
  have hpc' := Traced.entered_contains (coreAt sim c 1).cycle item (coreAt sim c (k + 2)).pc
  rw [Traced.sampleUpTo, Traced.sampleUpTo_of_outside hin hstays]
  cases hpc : item.contains (coreAt sim c (k + 2)).pc with
  | true =>
    rw [Traced.sample_eq_self _ hin' (hpc'.trans hpc)]
    rfl
  | false =>
    rw [Traced.sample_log_of_leaves _ hin' (hpc'.trans hpc)]
    exact Trace.leave_of_open (Trace.enter_visits (coreAt sim c 1).cycle item.log) rfl

/-- What a call that stops at `stop` adds to the log, by the number of its instructions. -/
theorem one_visit_iff {k : Nat} (hfirst : FirstReaches sim stop c k)
    (hstays : ∀ j < k, item.contains (coreAt sim c j).pc = true) :
    (∃ v, (item.sampleUpTo sim c k).log.visits = item.log.visits ++ [v]
        ∧ v.complete = true ∧ v.entry = c.cycle ∧ v.cycles = (coreAt sim c k).cycle - c.cycle)
      ↔ item.inside = false ∧ item.contains stop = false ∧ c.pc ≠ stop
        ∧ (sim.next c).pc ≠ stop ∧ (sim.next c).cycle = c.cycle := by
  have hpc : (coreAt sim c k).pc = stop := hfirst.1.2
  match k with
  | 0 =>
    -- the function begins at the trap: nothing is sampled
    constructor
    · rintro ⟨v, hv, -⟩
      simp [Traced.sampleUpTo] at hv
    · rintro ⟨-, -, hne, -⟩
      exact absurd hpc hne
  | k + 1 =>
    cases hin : item.inside with
    | true =>
      constructor
      · rintro ⟨v, hv, -⟩
        exact absurd hv (no_visit_of_inside hin fun j hj => hstays (j + 1) (by omega))
      · rintro ⟨hfalse, -⟩
        cases hfalse
    | false =>
      match k with
      | 0 =>
        -- the only sample is taken at the trap, after the function has been left
        constructor
        · rintro ⟨v, hv, hcomplete, -⟩
          cases hstop : item.contains stop with
          | true =>
            simp [Traced.sampleUpTo, Traced.sample, hpc, hin, hstop] at hv
            simp [← hv] at hcomplete
          | false => simp [Traced.sampleUpTo, Traced.sample, hpc, hin, hstop] at hv
        · rintro ⟨-, -, -, hne, -⟩
          exact absurd hpc hne
      | k + 1 =>
        rw [visits_of_outside hin fun j hj => hstays (j + 1) (by omega), hpc]
        constructor
        · rintro ⟨v, hv, hcomplete, hentry, -⟩
          obtain rfl := List.singleton_inj.mp (List.append_cancel_left hv)
          cases hstop : item.contains stop with
          | true => simp [hstop] at hcomplete
          | false =>
            rw [hstop, if_neg (by simp)] at hentry
            exact ⟨rfl, rfl, hfirst.2 0 (by omega), hfirst.2 1 (by omega), hentry⟩
        · rintro ⟨-, hstop, -, -, hcycle⟩
          refine ⟨_, rfl, ?_⟩
          have hcycle' : (coreAt sim c 1).cycle = c.cycle := hcycle
          simp [hstop, hcycle']

end

/--
**The two costs of a call agree only when nothing is lost to the first instruction.** Let control
stay inside the function until it gets to the trap, and let `call` report that it did. Then the
trace agrees if and only if its entry was down, the trap is outside the extent, the call makes at
least two instructions and the first of them takes no time.
-/
theorem costsAgree_iff {sim : Simavr ι} {m : Mcu ι} {symbol : String} {item : Traced}
    {cycleBudget : UInt64} {c : Core ι} (hc : c = m.prog.enterCall (m.address symbol) m.avr)
    (hdef : m.address symbol ≠ noAddress) (hitem : m.traced[symbol]? = some item)
    (hstays : ∀ k, FirstReaches sim m.prog.trap c k →
      ∀ j < k, item.contains (coreAt sim c j).pc = true)
    (hret : (m.call sim symbol cycleBudget).1.returned = true) :
    CostsAgree symbol item c (m.call sim symbol cycleBudget)
      ↔ item.inside = false ∧ item.contains m.prog.trap = false
        ∧ m.address symbol ≠ m.prog.trap ∧ (sim.next c).pc ≠ m.prog.trap
        ∧ (sim.next c).cycle = c.cycle := by
  have hpc : c.pc = m.address symbol := by rw [hc]; rfl
  rw [Mcu.call_eq sim cycleBudget hdef, ← hc] at hret ⊢
  have hfirst := firstReaches_of_returned hret
  have hcycles := cycles_untilLoop sim m.prog.trap cycleBudget c
  have htraced : (m.runLoop sim (untilLoop m.prog.trap cycleBudget c)).traced[symbol]?
      = some (item.sampleUpTo sim c ((untilLoop m.prog.trap cycleBudget c).steps sim)) := by
    rw [Mcu.runLoop_eq_iterate, traced_iterate_tick]
    simp only [hitem]
    rfl
  generalize (untilLoop m.prog.trap cycleBudget c).steps sim = k at hfirst hcycles htraced
  have hlog : CostsAgree symbol item c
      ((untilLoop m.prog.trap cycleBudget c).report sim m.prog.trap cycleBudget,
        m.runLoop sim (untilLoop m.prog.trap cycleBudget c))
      ↔ ∃ v, (item.sampleUpTo sim c k).log.visits = item.log.visits ++ [v]
          ∧ v.complete = true ∧ v.entry = c.cycle
          ∧ v.cycles = (coreAt sim c k).cycle - c.cycle := by
    simp only [CostsAgree, htraced, Option.some.injEq, hcycles]
    constructor
    · rintro ⟨-, v, rfl, hv⟩
      exact ⟨v, hv⟩
    · rintro ⟨v, hv⟩
      exact ⟨_, v, rfl, hv⟩
  rw [hlog, ← hpc]
  exact one_visit_iff hfirst (hstays k hfirst)

/-- A function that is a `nop` and a `ret`, traced. The program counter is not in it yet. -/
def nopRet : Mcu Unit :=
  (Isa.boot [0x0000, 0x0000, 0x9508] [⟨"main", 0⟩, ⟨"f", 2⟩]).trace "f"

/-- Its core as `call` starts it. -/
def nopRetCore : Core Unit := nopRet.prog.enterCall 2 nopRet.avr

/-- Its entry before the call. -/
def nopRetItem : Traced := ⟨2, 6, false, Trace.new⟩

/-- The fragment with a `nop` that takes no time. -/
def freeNop : Simavr Unit :=
  { Isa.simavr with
    avrRun := fun c =>
      if Isa.decode (Isa.fetch c) = .nop then ({ Isa.simavr.next c with cycle := c.cycle }, [])
      else Isa.simavr.avrRun c }

/-- Control stays inside `f` until its `ret`, which is its second instruction. -/
theorem nopRet_stays {sim : Simavr Unit} (h₀ : nopRetCore.live = true)
    (h₁ : (sim.next nopRetCore).live = true) (hpc₁ : (sim.next nopRetCore).pc = 4)
    (hpc₂ : (sim.next (sim.next nopRetCore)).pc = 6) :
    ∀ k, FirstReaches sim 6 nopRetCore k →
      ∀ j < k, nopRetItem.contains (coreAt sim nopRetCore j).pc = true := by
  -- the two places before the trap
  have hbefore : ∀ j < 2, (coreAt sim nopRetCore j).live = true
      ∧ ((coreAt sim nopRetCore j).pc = 2 ∨ (coreAt sim nopRetCore j).pc = 4) := by
    intro j hj
    match j, hj with
    | 0, _ => exact ⟨h₀, Or.inl rfl⟩
    | 1, _ => exact ⟨h₁, Or.inr hpc₁⟩
  have hfirst : FirstReaches sim 6 nopRetCore 2 := by
    refine ⟨⟨fun j hj => (hbefore j hj).1, hpc₂⟩, fun j hj => ?_⟩
    rcases (hbefore j hj).2 with h | h <;> rw [h] <;> decide
  intro k hk j hj
  rw [hk.unique hfirst] at hj
  rcases (hbefore j hj).2 with h | h <;> rw [h] <;> decide

/-- With a `nop` that takes no time the trace agrees with the call. -/
theorem costsAgree_iff_freeNop :
    CostsAgree "f" nopRetItem nopRetCore (nopRet.call freeNop "f" 100) := by
  have hstays := @nopRet_stays freeNop (by decide +kernel) (by decide +kernel)
    (by decide +kernel) (by decide +kernel)
  have hdef : nopRet.address "f" ≠ noAddress := by decide +kernel
  have hret : (nopRet.call freeNop "f" 100).1.returned = true := by decide +kernel
  exact (costsAgree_iff rfl hdef (by decide +kernel) hstays hret).mpr (by decide +kernel)

/-- With one that takes a cycle, as it does, the visit starts a cycle late. -/
theorem not_costsAgree_nop :
    nopRet.traced["f"]? = some nopRetItem
      ∧ (∀ k, FirstReaches Isa.simavr 6 nopRetCore k →
          ∀ j < k, nopRetItem.contains (coreAt Isa.simavr nopRetCore j).pc = true)
      ∧ (nopRet.call Isa.simavr "f" 100).1 = ⟨true, 5⟩
      ∧ ((nopRet.call Isa.simavr "f" 100).2.traced["f"]?.map fun item => item.log.visits)
          = some [⟨1, 5, 4, true⟩]
      ∧ ¬ CostsAgree "f" nopRetItem nopRetCore (nopRet.call Isa.simavr "f" 100) := by
  have hvisits : ((nopRet.call Isa.simavr "f" 100).2.traced["f"]?.map fun item =>
      item.log.visits) = some [⟨1, 5, 4, true⟩] := by decide +kernel
  refine ⟨by decide +kernel, ?_, by decide +kernel, hvisits, ?_⟩
  · exact nopRet_stays (by decide +kernel) (by decide +kernel) (by decide +kernel)
      (by decide +kernel)
  · rintro ⟨item, v, hitem, hv, -, hentry, -⟩
    rw [hitem] at hvisits
    have hlog : item.log.visits = [⟨1, 5, 4, true⟩] := Option.some.inj hvisits
    obtain rfl : v = ⟨1, 5, 4, true⟩ := by simpa [nopRetItem, hlog] using hv.symm
    revert hentry
    decide +kernel

end Avrsim
