import Avrsim.Isa
import Avrsim.Properties.Interchange
import Avrsim.Spec.Observers

/-!
# The zero of the cycle counter

Whatever the harness reports of time is a difference. On a core that does the same when its cycle
counter is later, and reports the same later, it makes no difference when a test begins: every
command returns the same, and every figure computed from the logs is the same.

* `Core.shift`, `Trace.shift`, `PinLog.shift` — the same, `d` cycles later
* `Simavr.Shifts` — a core that does the same later
* `Mcu.ShiftedBy` — two machines of which one is later
* `measurements_eq_of_shifted` — they measure the same
-/

namespace Avrsim

open Infra.Loop

variable {ι : Type}

/-! ## Later -/

/-- The same core with its counter `d` later, and `f` done to what else it keeps. -/
def Core.shift (d : UInt64) (f : ι → ι) (c : Core ι) : Core ι :=
  { c with cycle := c.cycle + d, rest := f c.rest }

def Notice.shift (d : UInt64) (notice : Notice) : Notice :=
  { notice with cycle := notice.cycle + d }

def Visit.shift (d : UInt64) (v : Visit) : Visit :=
  { v with entry := v.entry + d, exit := v.exit + d }

def Trace.shift (d : UInt64) (t : Trace) : Trace := ⟨t.visits.map (Visit.shift d)⟩

def Traced.shift (d : UInt64) (item : Traced) : Traced := { item with log := item.log.shift d }

def Transition.shift (d : UInt64) (t : Transition) : Transition := { t with cycle := t.cycle + d }

def PinLog.shift (d : UInt64) (log : PinLog) : PinLog :=
  ⟨log.transitions.map (Transition.shift d)⟩

/-- A core that does the same `d` cycles later, when `f` is done to what else it keeps. -/
structure Simavr.Shifts (sim : Simavr ι) (d : UInt64) (f : ι → ι) : Prop where
  run : ∀ c : Core ι, c.live = true →
    sim.avrRun (c.shift d f) = ((sim.avrRun c).1.shift d f, (sim.avrRun c).2.map (Notice.shift d))
  raise : ∀ (pin : PinKey) (value : UInt32) (c : Core ι),
    sim.avrRaiseIrq pin value (c.shift d f)
      = ((sim.avrRaiseIrq pin value c).1.shift d f,
          (sim.avrRaiseIrq pin value c).2.map (Notice.shift d))

/-- Two counters that are equally late are as far apart. -/
theorem sub_shift (a b d : UInt64) : a + d - (b + d) = a - b := by grind

/-! ## Figures -/

/-- What a test computes from the log of a function. -/
structure Trace.Figures where
  count : Nat
  costs : List UInt64
  totalCycles : UInt64
  shortest : UInt64
  longest : UInt64
  gap : Nat → Nat → UInt64
  callStarts : List Nat

def Trace.figures (t : Trace) : Trace.Figures where
  count := t.count
  costs := t.visits.map Visit.cycles
  totalCycles := t.totalCycles
  shortest := t.shortest
  longest := t.longest
  gap := fun first second => t.gap first second
  callStarts := t.callStarts

/-- What a test computes from the log of a pin. -/
structure PinLog.Figures where
  count : Nat
  level : Bool
  gap : Nat → Nat → UInt64

def PinLog.figures (log : PinLog) : PinLog.Figures where
  count := log.count
  level := log.level
  gap := fun first second => log.gap first second

theorem Trace.gap_shift (d : UInt64) (t : Trace) (first second : Nat) :
    (t.shift d).gap first second = t.gap first second := by
  unfold Trace.gap Trace.shift
  simp only [List.getElem?_map]
  cases t.visits[first]? with
  | none => rfl
  | some v =>
    cases t.visits[second]? with
    | none => rfl
    | some v' => exact sub_shift v'.entry v.entry d

theorem PinLog.gap_shift (d : UInt64) (log : PinLog) (first second : Nat) :
    (log.shift d).gap first second = log.gap first second := by
  unfold PinLog.gap PinLog.shift
  simp only [List.getElem?_map]
  cases log.transitions[first]? with
  | none => rfl
  | some t =>
    cases log.transitions[second]? with
    | none => rfl
    | some t' => exact sub_shift t'.cycle t.cycle d

/-- **The figures of a log do not depend on when it was made.** -/
theorem Trace.figures_shift (d : UInt64) (t : Trace) : (t.shift d).figures = t.figures := by
  have hlength : (t.shift d).visits.length = t.visits.length := List.length_map _
  have hcosts : (t.shift d).visits.map Visit.cycles = t.visits.map Visit.cycles := by
    simp [Trace.shift, Visit.shift, Function.comp_def]
  have htotal : (t.shift d).totalCycles = t.totalCycles := by
    unfold Trace.totalCycles Trace.shift
    rw [List.foldl_map]
    rfl
  have hshortest : (t.shift d).shortest = t.shortest := by
    unfold Trace.shortest Trace.shift
    rw [List.foldl_map]
    rfl
  have hlongest : (t.shift d).longest = t.longest := by
    unfold Trace.longest Trace.shift
    rw [List.foldl_map]
    rfl
  have hstarts : (t.shift d).callStarts = t.callStarts := by
    unfold Trace.callStarts
    simp only [Trace.gap_shift, hlength]
  unfold Trace.figures
  simp only [Trace.gap_shift, hcosts, htotal, hshortest, hlongest, hstarts, Trace.count, hlength]

theorem PinLog.figures_shift (d : UInt64) (log : PinLog) :
    (log.shift d).figures = log.figures := by
  have hcount : (log.shift d).count = log.count := List.length_map _
  have hlevel : (log.shift d).level = log.level := by
    unfold PinLog.level PinLog.shift
    rw [List.getLast?_map, Option.map_map]
    rfl
  unfold PinLog.figures
  simp only [PinLog.gap_shift, hcount, hlevel]

/-! ## Records -/

theorem Trace.enter_shift (d cycle : UInt64) (t : Trace) :
    (t.shift d).enter (cycle + d) = (t.enter cycle).shift d := by
  simp [Trace.enter, Trace.shift, Visit.shift]

theorem Trace.leave_shift (d cycle : UInt64) (t : Trace) :
    (t.shift d).leave (cycle + d) = (t.leave cycle).shift d := by
  rcases List.eq_nil_or_concat t.visits with h | ⟨init, v, h⟩
  · rw [Trace.leave_of_nil h, Trace.leave_of_nil (by simp [Trace.shift, h])]
  · rw [List.concat_eq_append] at h
    have hshift : (t.shift d).visits = init.map (Visit.shift d) ++ [v.shift d] := by
      simp [Trace.shift, h]
    cases hv : v.complete with
    | true => rw [Trace.leave_of_complete h hv, Trace.leave_of_complete hshift hv]
    | false =>
      have hvisits : ((t.shift d).leave (cycle + d)).visits = ((t.leave cycle).shift d).visits := by
        rw [Trace.leave_of_open hshift hv, Trace.shift, Trace.leave_of_open h hv]
        simp only [Visit.shift, sub_shift, List.map_append, List.map_cons, List.map_nil]
      exact congrArg Trace.mk hvisits

theorem Traced.sample_shift (d : UInt64) (pc : UInt32) (cycle : UInt64) (item : Traced) :
    (item.shift d).sample pc (cycle + d) = (item.sample pc cycle).shift d := by
  unfold Traced.sample Traced.shift Traced.contains
  simp only [Trace.enter_shift, Trace.leave_shift]
  split
  · rfl
  · split <;> rfl

theorem PinLog.record_shift (d cycle : UInt64) (level : Bool) (log : PinLog) :
    (log.shift d).record (cycle + d) level = (log.record cycle level).shift d := by
  simp [PinLog.record, PinLog.shift, Transition.shift]

/-! ## Machines -/

/-- `m'` is `m` with its counter, and everything its logs say of the counter, `d` later. -/
structure Mcu.ShiftedBy (d : UInt64) (f : ι → ι) (m m' : Mcu ι) : Prop where
  prog : m'.prog = m.prog
  avr : m'.avr = m.avr.shift d f
  pins : ∀ pin : PinKey, m'.pins[pin]? = m.pins[pin]?.map (PinLog.shift d)
  hooks : m'.hooks = m.hooks
  lowestStack : m'.lowestStack = m.lowestStack
  traced : ∀ symbol : String, m'.traced[symbol]? = m.traced[symbol]?.map (Traced.shift d)
  stackWatches : m'.stackWatches = m.stackWatches

theorem pins_onPinChanged_shift {d : UInt64} (notice : Notice) (hooks : List PinHook) :
    ∀ {pins pins' : PinMap}, (∀ pin : PinKey, pins'[pin]? = pins[pin]?.map (PinLog.shift d)) →
      ∀ pin : PinKey, (onPinChanged hooks pins' (notice.shift d))[pin]?
        = (onPinChanged hooks pins notice)[pin]?.map (PinLog.shift d) := by
  unfold onPinChanged
  induction hooks with
  | nil => exact id
  | cons hook hooks ih =>
    intro pins pins' h
    rw [List.foldl_cons, List.foldl_cons]
    refine ih fun pin => ?_
    by_cases hirq : hook.irq = notice.pin
    · rw [if_pos hirq, if_pos (show hook.irq = (notice.shift d).pin from hirq),
        Std.TreeMap.getElem?_modify, Std.TreeMap.getElem?_modify, h pin, h hook.log]
      split
      · rw [Option.map_map, Option.map_map]
        exact congrArg (Option.map · _) (funext fun log => PinLog.record_shift d _ _ log)
      · rfl
    · rw [if_neg hirq, if_neg (show ¬ hook.irq = (notice.shift d).pin from hirq), h pin]

theorem Core.setReg_shift (d : UInt64) (f : ι → ι) (index value : UInt8) (c : Core ι) :
    (c.shift d f).setReg index value = (c.setReg index value).shift d f := by
  unfold Core.setReg
  split <;> rfl

namespace Mcu.ShiftedBy

variable {d : UInt64} {f : ι → ι} {m m' : Mcu ι} (h : m.ShiftedBy d f m')

include h

/-- Another core on both sides. -/
theorem withCore (c : Core ι) :
    ({ m with avr := c } : Mcu ι).ShiftedBy d f { m' with avr := c.shift d f } :=
  ⟨h.prog, rfl, h.pins, h.hooks, h.lowestStack, h.traced, h.stackWatches⟩

theorem absorb {r r' : Core ι × List Notice}
    (hr : r' = (r.1.shift d f, r.2.map (Notice.shift d))) :
    (m.absorb r).ShiftedBy d f (m'.absorb r') := by
  subst hr
  refine ⟨h.prog, rfl, ?_, h.hooks, h.lowestStack, h.traced, h.stackWatches⟩
  obtain ⟨c, notices⟩ := r
  show ∀ pin : PinKey, ((notices.map (Notice.shift d)).foldl (onPinChanged m'.hooks) m'.pins)[pin]?
    = (notices.foldl (onPinChanged m.hooks) m.pins)[pin]?.map (PinLog.shift d)
  rw [h.hooks]
  have hpins := h.pins
  generalize m.pins = pins, m'.pins = pins' at hpins ⊢
  induction notices generalizing pins pins' with
  | nil => exact hpins
  | cons notice notices ih => exact ih _ _ (pins_onPinChanged_shift notice m.hooks hpins)

theorem sampleStack : m.sampleStack.ShiftedBy d f m'.sampleStack := by
  have hsp : m'.avr.sp = m.avr.sp := by
    rw [h.avr]
    rfl
  refine ⟨h.prog, h.avr, h.pins, h.hooks, ?_, h.traced, ?_⟩
  · unfold Mcu.sampleStack
    simp only [hsp, h.lowestStack]
  · unfold Mcu.sampleStack
    simp only [hsp, h.stackWatches]

theorem sampleTraces : m.sampleTraces.ShiftedBy d f m'.sampleTraces := by
  refine ⟨h.prog, h.avr, h.pins, h.hooks, h.lowestStack, fun symbol => ?_, h.stackWatches⟩
  unfold Mcu.sampleTraces
  simp only [Std.TreeMap.getElem?_map]
  rw [h.traced symbol, h.avr, Option.map_map, Option.map_map]
  exact congrArg (Option.map · _) (funext fun item => Traced.sample_shift d _ _ item)

/-- A pass of the loop, on both sides. -/
theorem tick {sim : Simavr ι} (hshift : sim.Shifts d f) (hlive : m.avr.live = true) :
    (m.tick sim).ShiftedBy d f (m'.tick sim) := by
  refine ((h.absorb ?_).sampleStack).sampleTraces
  rw [h.avr]
  exact hshift.run m.avr hlive

end Mcu.ShiftedBy

/-! ### Loops -/

/-- Two loops of which one starts later. -/
structure StepLoop.ShiftedBy (d : UInt64) (f : ι → ι) (l l' : StepLoop ι) : Prop where
  start : l'.start = l.start.shift d f
  go : ∀ c, l'.go (c.shift d f) = l.go c
  live : ∀ c, l.go c = true → c.live = true
  cap : l'.cap = l.cap

theorem untilLoop_shift (d : UInt64) (f : ι → ι) (stop : UInt32) (cycleBudget : UInt64)
    (c : Core ι) : (untilLoop stop cycleBudget c).ShiftedBy d f
      (untilLoop stop cycleBudget (c.shift d f)) where
  start := rfl
  go := fun c' => by
    show untilGo stop cycleBudget (c.cycle + d) (c'.shift d f) = untilGo stop cycleBudget c.cycle c'
    unfold untilGo Core.live Core.shift
    simp only [sub_shift]
  live := fun _ hgo => (untilGo_iff.mp hgo).2.2
  cap := rfl

theorem forLoop_shift (d : UInt64) (f : ι → ι) (cycles : UInt64) (c : Core ι) :
    (forLoop cycles c).ShiftedBy d f (forLoop cycles (c.shift d f)) where
  start := rfl
  go := fun c' => by
    show forGo cycles (c.cycle + d) (c'.shift d f) = forGo cycles c.cycle c'
    unfold forGo Core.live Core.shift
    simp only [sub_shift]
  live := fun _ hgo => (forGo_iff.mp hgo).2
  cap := rfl

section

variable {sim : Simavr ι} {d : UInt64} {f : ι → ι} (hshift : sim.Shifts d f)

include hshift

namespace StepLoop.ShiftedBy

variable {l l' : StepLoop ι} (hl : l.ShiftedBy d f l')

include hl

/-- As many instructions are made, and the core is later at the end too. -/
theorem steps_final : l'.steps sim = l.steps sim ∧ l'.final sim = (l.final sim).shift d f := by
  have hnext : ∀ c c' : Core ι, c' = c.shift d f → l.go c = true →
      sim.next c' = (sim.next c).shift d f := by
    rintro c _ rfl hgo
    exact congrArg Prod.fst (hshift.run c (hl.live c hgo))
  have hgo : ∀ c c' : Core ι, c' = c.shift d f → l.go c = l'.go c' := by
    rintro c _ rfl
    exact (hl.go c).symm
  have hrel := rel_stepWhile (R := fun c c' : Core ι => c' = c.shift d f) hgo hnext l.cap hl.start
  unfold steps final
  rw [hl.cap]
  exact ⟨hrel.1.symm, hrel.2⟩

theorem report (stop : UInt32) (cycleBudget : UInt64) :
    l'.report sim stop cycleBudget = l.report sim stop cycleBudget := by
  obtain ⟨hsteps, hfinal⟩ := hl.steps_final hshift
  have hspent : (l'.final sim).cycle - l'.start.cycle = (l.final sim).cycle - l.start.cycle := by
    rw [hfinal, hl.start]
    exact sub_shift _ _ d
  have hpc : (l'.final sim).pc = (l.final sim).pc := by
    rw [hfinal]
    rfl
  unfold StepLoop.report
  rw [hspent, hpc, hsteps, hl.cap]

theorem runLoop {m m' : Mcu ι} (h : m.ShiftedBy d f m') :
    (m.runLoop sim l).ShiftedBy d f (m'.runLoop sim l') := by
  have hstart : ({ m with avr := l.start } : Mcu ι).ShiftedBy d f { m' with avr := l'.start } := by
    rw [hl.start]
    exact h.withCore l.start
  have hgo : ∀ m m' : Mcu ι, m.ShiftedBy d f m' → l.go m.avr = l'.go m'.avr := by
    intro m m' h
    rw [h.avr, hl.go]
  have hrel := rel_stepWhile hgo (fun m m' h hgo => h.tick hshift (hl.live m.avr hgo)) l.cap hstart
  unfold Mcu.runLoop
  rw [hl.cap]
  exact hrel.2

end StepLoop.ShiftedBy

/-! ### Commands -/

namespace Mcu.ShiftedBy

variable {m m' : Mcu ι} (h : m.ShiftedBy d f m')

include h

theorem call (symbol : String) (cycleBudget : UInt64) :
    (m'.call sim symbol cycleBudget).1 = (m.call sim symbol cycleBudget).1
      ∧ (m.call sim symbol cycleBudget).2.ShiftedBy d f (m'.call sim symbol cycleBudget).2 := by
  have haddress : m'.address symbol = m.address symbol := by
    unfold Mcu.address
    rw [h.prog]
  by_cases hdef : m.address symbol = noAddress
  · rw [Mcu.call_of_undefined sim cycleBudget hdef,
      Mcu.call_of_undefined sim cycleBudget (haddress.trans hdef)]
    exact ⟨rfl, h⟩
  · rw [Mcu.call_eq sim cycleBudget hdef,
      Mcu.call_eq sim cycleBudget (fun hnone => hdef (haddress ▸ hnone)), haddress, h.prog, h.avr]
    have hl := untilLoop_shift d f m.prog.trap cycleBudget
      (m.prog.enterCall (m.address symbol) m.avr)
    exact ⟨hl.report hshift m.prog.trap cycleBudget, hl.runLoop hshift h⟩

theorem runUntil (symbol : String) (cycleBudget : UInt64) :
    (m'.runUntil sim symbol cycleBudget).1 = (m.runUntil sim symbol cycleBudget).1
      ∧ (m.runUntil sim symbol cycleBudget).2.ShiftedBy d f
          (m'.runUntil sim symbol cycleBudget).2 := by
  have haddress : m'.address symbol = m.address symbol := by
    unfold Mcu.address
    rw [h.prog]
  by_cases hdef : m.address symbol = noAddress
  · rw [Mcu.runUntil_of_undefined sim cycleBudget hdef,
      Mcu.runUntil_of_undefined sim cycleBudget (haddress.trans hdef)]
    exact ⟨rfl, h⟩
  · rw [Mcu.runUntil_eq sim cycleBudget hdef,
      Mcu.runUntil_eq sim cycleBudget (fun hnone => hdef (haddress ▸ hnone)), haddress, h.avr]
    have hl := untilLoop_shift d f (m.address symbol) cycleBudget m.avr.wake
    exact ⟨hl.report hshift (m.address symbol) cycleBudget, hl.runLoop hshift h⟩

theorem run (cycles : UInt64) :
    (m'.run sim cycles).1 = (m.run sim cycles).1
      ∧ (m.run sim cycles).2.ShiftedBy d f (m'.run sim cycles).2 := by
  rw [Mcu.run_eq, Mcu.run_eq, h.avr]
  have hl := forLoop_shift d f cycles m.avr.wake
  refine ⟨?_, hl.runLoop hshift h⟩
  show ((forLoop cycles (m.avr.wake.shift d f)).final sim).cycle - (m.avr.cycle + d) = _
  rw [(hl.steps_final hshift).2]
  exact sub_shift _ _ d

omit hshift in
theorem trace (symbol : String) : (m.trace symbol).ShiftedBy d f (m'.trace symbol) := by
  have hframe : ∀ m : Mcu ι, (m.trace symbol).pins = m.pins ∧ (m.trace symbol).hooks = m.hooks
      ∧ (m.trace symbol).lowestStack = m.lowestStack
      ∧ (m.trace symbol).stackWatches = m.stackWatches := by
    intro m
    unfold Mcu.trace
    split <;> exact ⟨rfl, rfl, rfl, rfl⟩
  obtain ⟨hpins, hhooks, hlowest, hwatches⟩ := hframe m
  obtain ⟨hpins', hhooks', hlowest', hwatches'⟩ := hframe m'
  refine ⟨?_, ?_, ?_, ?_, ?_, fun symbol' => ?_, ?_⟩
  · rw [Mcu.trace_prog, Mcu.trace_prog, h.prog]
  · rw [Mcu.trace_avr, Mcu.trace_avr, h.avr]
  · rw [hpins, hpins']
    exact h.pins
  · rw [hhooks, hhooks', h.hooks]
  · rw [hlowest, hlowest', h.lowestStack]
  · rw [traced_trace, traced_trace, h.traced symbol', h.prog, h.avr]
    split
    · cases m.traced[symbol']? <;> rfl
    · rfl
  · rw [hwatches, hwatches', h.stackWatches]

omit hshift in
theorem clearTrace (symbol : String) :
    (m.clearTrace symbol).ShiftedBy d f (m'.clearTrace symbol) := by
  refine ⟨h.prog, h.avr, h.pins, h.hooks, h.lowestStack, fun symbol' => ?_, h.stackWatches⟩
  rw [traced_clearTrace, traced_clearTrace, h.traced symbol']
  split
  · cases m.traced[symbol']? <;> rfl
  · rfl

omit hshift in
theorem watchStack (low high : UInt16) :
    (m.watchStack low high).ShiftedBy d f (m'.watchStack low high) := by
  unfold Mcu.watchStack
  rw [h.stackWatches]
  split
  · exact h
  · exact ⟨h.prog, h.avr, h.pins, h.hooks, h.lowestStack, h.traced, rfl⟩

/-- An operation returns the same later, unless it sets the counter back. -/
theorem exec {op : Op} (hop : op ≠ .reset) :
    (Avrsim.exec sim m' op).1 = (Avrsim.exec sim m op).1
      ∧ (Avrsim.exec sim m op).2.ShiftedBy d f (Avrsim.exec sim m' op).2 := by
  have hcore : ∀ c c' : Core ι, c' = c.shift d f →
      ({ m with avr := c } : Mcu ι).ShiftedBy d f { m' with avr := c' } := by
    rintro c _ rfl
    exact h.withCore c
  cases op with
  | call symbol cycleBudget =>
    obtain ⟨hresult, hrel⟩ := h.call hshift symbol cycleBudget
    exact ⟨congrArg Outcome.call hresult, hrel⟩
  | run cycles =>
    obtain ⟨hresult, hrel⟩ := h.run hshift cycles
    exact ⟨congrArg Outcome.cycles hresult, hrel⟩
  | runUntil symbol cycleBudget =>
    obtain ⟨hresult, hrel⟩ := h.runUntil hshift symbol cycleBudget
    exact ⟨congrArg Outcome.call hresult, hrel⟩
  | reset => exact absurd rfl hop
  | trace symbol => exact ⟨rfl, h.trace symbol⟩
  | clearTrace symbol => exact ⟨rfl, h.clearTrace symbol⟩
  | watchStack low high => exact ⟨rfl, h.watchStack low high⟩
  | clearStack low high =>
    refine ⟨rfl, h.prog, h.avr, h.pins, h.hooks, h.lowestStack, h.traced, ?_⟩
    exact congrArg (List.map _) h.stackWatches
  | resetStackWatermark =>
    exact ⟨rfl, h.prog, h.avr, h.pins, h.hooks, rfl, h.traced, h.stackWatches⟩
  | setReg index value =>
    refine ⟨rfl, hcore _ _ ?_⟩
    rw [h.avr]
    exact Core.setReg_shift d f index value m.avr
  | setRegPair low value =>
    refine ⟨rfl, hcore _ _ ?_⟩
    rw [h.avr]
    unfold Core.setRegPair
    simp only [Core.setReg_shift]
  | setData addr value =>
    refine ⟨rfl, hcore _ _ ?_⟩
    rw [h.avr, h.prog]
    unfold Core.setByte
    split <;> rfl
  | setSreg value =>
    refine ⟨rfl, hcore _ _ ?_⟩
    rw [h.avr]
    rfl

/-- A command returns the same later, and fails with the same message. -/
theorem command {cmd : Command} (hcmd : cmd ≠ .op .reset) :
    cmd.outcome sim m' = cmd.outcome sim m
      ∧ ((∃ message, cmd.exec sim m = .error message ∧ cmd.exec sim m' = .error message)
        ∨ ∃ m₁ m₁', cmd.exec sim m = .ok m₁ ∧ cmd.exec sim m' = .ok m₁'
          ∧ m₁.ShiftedBy d f m₁') := by
  cases cmd with
  | op operation =>
    have hop : operation ≠ .reset := fun hop => hcmd (congrArg Command.op hop)
    obtain ⟨hresult, hrel⟩ := h.exec hshift hop
    exact ⟨hresult, .inr ⟨_, _, rfl, rfl, hrel⟩⟩
  | watch port bit =>
    refine ⟨rfl, ?_⟩
    have hcontains : m'.pins.contains (port, bit) = m.pins.contains (port, bit) := by
      rw [Std.TreeMap.contains_eq_isSome_getElem?, Std.TreeMap.contains_eq_isSome_getElem?,
        h.pins, Option.isSome_map]
    unfold Command.exec Mcu.watch
    simp only [hcontains]
    split
    · exact .inr ⟨m, m', rfl, rfl, h⟩
    · split
      · refine .inr ⟨_, _, rfl, rfl, h.prog, h.avr, fun pin => ?_, ?_, h.lowestStack, h.traced,
          h.stackWatches⟩
        · rw [Std.TreeMap.getElem?_insert, Std.TreeMap.getElem?_insert, h.pins pin]
          split <;> rfl
        · exact congrArg (· ++ _) h.hooks
      · exact .inl ⟨_, rfl, rfl⟩
  | drive port bit level =>
    refine ⟨rfl, .inr ⟨_, _, rfl, rfl, ?_⟩⟩
    unfold Mcu.drive
    split
    · refine h.absorb ?_
      rw [h.avr]
      exact hshift.raise (port, bit) _ m.avr
    · exact h

end Mcu.ShiftedBy

end

/-! ## Sessions -/

/-- All that a test can compute from a machine, but for the counter itself. -/
structure Figures where
  data : UInt16 → UInt8
  sreg : UInt8
  lowestStack : UInt16
  stackWatches : List StackWatch
  traced : String → Option Trace.Figures
  pins : PinKey → Option PinLog.Figures

def Mcu.figures (m : Mcu ι) : Figures where
  data := m.data
  sreg := m.sreg
  lowestStack := m.lowestStack
  stackWatches := m.stackWatches
  traced := fun symbol => m.traced[symbol]?.map fun item => item.log.figures
  pins := fun pin => m.pins[pin]?.map PinLog.figures

/-- What a test measures: what each command returns, and the figures after it. -/
def measurements (sim : Simavr ι) :
    Mcu ι → List Command → List (Except String (Outcome × Figures))
  | _, [] => []
  | m, cmd :: cmds =>
    match cmd.exec sim m with
    | .error message => [.error message]
    | .ok m' => .ok (cmd.outcome sim m, m'.figures) :: measurements sim m' cmds

theorem Mcu.ShiftedBy.figures {d : UInt64} {f : ι → ι} {m m' : Mcu ι} (h : m.ShiftedBy d f m') :
    m'.figures = m.figures := by
  have htraced : ∀ symbol : String, m'.traced[symbol]?.map (fun item => item.log.figures)
      = m.traced[symbol]?.map fun item => item.log.figures := by
    intro symbol
    rw [h.traced symbol, Option.map_map]
    exact congrArg (Option.map · _) (funext fun item => Trace.figures_shift d item.log)
  have hpins : ∀ pin : PinKey, m'.pins[pin]?.map PinLog.figures
      = m.pins[pin]?.map PinLog.figures := by
    intro pin
    rw [h.pins pin, Option.map_map]
    exact congrArg (Option.map · _) (funext (PinLog.figures_shift d))
  unfold Mcu.figures Mcu.data Mcu.sreg
  simp only [htraced, hpins, h.avr, h.prog, h.lowestStack, h.stackWatches]
  rfl

/--
**It makes no difference when a test begins.** On a core that does the same `d` cycles later, two
machines of which one is `d` cycles later than the other measure the same in any session without a
reset: every command returns the same or fails with the same message, and after each of them the
memory, the flags, the marks of the stack and the figures of every log are the same.
-/
theorem measurements_eq_of_shifted {sim : Simavr ι} {d : UInt64} {f : ι → ι}
    (hshift : sim.Shifts d f) {m m' : Mcu ι} (h : m.ShiftedBy d f m') {cmds : List Command}
    (hcmds : .op .reset ∉ cmds) : measurements sim m' cmds = measurements sim m cmds := by
  induction cmds generalizing m m' with
  | nil => rfl
  | cons cmd cmds ih =>
    obtain ⟨hcmd, hcmds⟩ : .op .reset ≠ cmd ∧ .op .reset ∉ cmds := by simpa using hcmds
    obtain ⟨houtcome, hexec⟩ := h.command hshift hcmd.symm
    rw [measurements, measurements]
    rcases hexec with ⟨message, herror, herror'⟩ | ⟨m₁, m₁', hok, hok', h₁⟩
    · rw [herror, herror']
    · rw [hok, hok', houtcome]
      simp only
      rw [h₁.figures, ih h₁ hcmds]

/-- A machine that has recorded nothing, later. -/
theorem shiftedBy_of_fresh (d : UInt64) (f : ι → ι) (prog : Program) (clockHz : UInt32)
    (c : Core ι) : (Mcu.ofProgram prog clockHz c).ShiftedBy d f
      (Mcu.ofProgram prog clockHz (c.shift d f)) := by
  have hpins : ∀ pin : PinKey, (∅ : PinMap)[pin]? = none := fun _ => Std.TreeMap.getElem?_emptyc
  have htraced : ∀ symbol : String, (∅ : Std.TreeMap String Traced)[symbol]? = none :=
    fun _ => Std.TreeMap.getElem?_emptyc
  refine ⟨rfl, rfl, fun pin => ?_, rfl, rfl, fun symbol => ?_, rfl⟩
  · show (∅ : PinMap)[pin]? = (∅ : PinMap)[pin]?.map _
    rw [hpins]
    rfl
  · show (∅ : Std.TreeMap String Traced)[symbol]? = (∅ : Std.TreeMap String Traced)[symbol]?.map _
    rw [htraced]
    rfl

/-! ### Instructions -/

theorem finish_shift (d : UInt64) (pc : UInt32) (cycles : UInt64) (c : Core Unit) :
    Isa.finish pc cycles (c.shift d id) = (Isa.finish pc cycles c).shift d id := by
  have hcycle : c.cycle + d + cycles = c.cycle + cycles + d := by grind
  unfold Isa.finish Core.shift
  simp only [hcycle]

/-- The instructions of the fragment do the same later. -/
theorem execute_shift (d : UInt64) (part : Part) (c : Core Unit) (instr : Isa.Instr) :
    Isa.execute part (c.shift d id) instr = (Isa.execute part c instr).shift d id := by
  cases instr with
  | nop => exact finish_shift d (c.pc + 2) 1 c
  | push r =>
    exact finish_shift d (c.pc + 2) 2 (Isa.setSp (c.write c.sp (c.reg r)) (c.sp - 1))
  | pop r =>
    show Isa.finish (c.pc + 2) 2
      (((Isa.setSp c (c.sp + 1)).shift d id).setReg r (c.data (c.sp + 1))) = _
    rw [Core.setReg_shift]
    exact finish_shift d (c.pc + 2) 2 _
  | ret =>
    exact finish_shift d (Isa.popAddress part c) 4 (Isa.setSp c (c.sp + part.addressSize.toUInt16))
  | rjmp offset => exact finish_shift d (c.pc + 2 + offset) 2 c
  | sleep => exact finish_shift d (c.pc + 2) 1 { c with state := .sleeping }
  | illegal => exact finish_shift d c.pc 1 { c with state := .crashed }

theorem step_shift (d : UInt64) (part : Part) (c : Core Unit) :
    Isa.step part (c.shift d id) = (Isa.step part c).shift d id := by
  have hstate : (c.shift d id).state = c.state := rfl
  unfold Isa.step
  rw [hstate]
  cases c.state with
  | running => exact execute_shift d part c _
  | sleeping => exact finish_shift d c.pc 1 c
  | _ => rfl

theorem shifts_simavr (d : UInt64) : Isa.simavr.Shifts d id where
  run := fun c _ => by
    show (Isa.step Isa.atmega328p (c.shift d id), []) = _
    rw [step_shift]
    rfl
  raise := fun _ _ _ => rfl

/-- The same test from cycle 0 and shortly before the counter wraps. -/
theorem measurements_eq_of_shifted_turns :
    measurements Isa.simavr
        (Mcu.ofProgram Isa.turns.prog 16000000
          ({ Isa.turns.avr with cycle := 0xFFFFFFFFFFFFFFFD }))
        [.op (.trace "f"), .op (.runUntil "f" 10), .op (.run 7), .watch 'B' 5, .op (.call "f" 9)]
      = measurements Isa.simavr Isa.turns
        [.op (.trace "f"), .op (.runUntil "f" 10), .op (.run 7), .watch 'B' 5, .op (.call "f" 9)] :=
  measurements_eq_of_shifted (shifts_simavr 0xFFFFFFFFFFFFFFFD)
    (shiftedBy_of_fresh _ id Isa.turns.prog 16000000 Isa.turns.avr) (by decide)

end Avrsim
