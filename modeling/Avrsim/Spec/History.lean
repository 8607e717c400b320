import Avrsim.Properties.Stepping

/-!
# Histories

What a run goes through, told without anything that is being measured: the operations as they
are issued, and the samples taken while they run. A history depends on the program and the core
alone. What the harness measures is then a fold over it, one `Observer` for each thing measured.

* `history` — the events of a run
* `exec_avr` — what an operation does to the core does not depend on what is being measured
* `samplesDuring_sorted` — short of a reset the cycles of the samples go up
* `Observer.view_runOps` — an observer ends up with the fold of what it sees over the history
-/

namespace Avrsim

open Infra.Loop

variable {ι : Type}

/-- Something that happens in a run. An operation is issued where the program counter is then. -/
inductive Event where
  | issued (op : Op) (pc : UInt32)
  | sampled (s : Sample)
deriving DecidableEq, Repr

/-- The sample an event carries. -/
def Event.sample? : Event → Option Sample
  | .issued _ _ => none
  | .sampled s => some s

/-- The samples among some events, oldest first. -/
def samplesOf (events : List Event) : List Sample := events.filterMap Event.sample?

/-- The operations that run one of the stepping loops. -/
def Op.steps : Op → Bool
  | .call _ _ | .run _ | .runUntil _ _ => true
  | _ => false

/-- What an operation does to the core. -/
def coreAfter (sim : Simavr ι) (prog : Program) (c : Core ι) (op : Op) : Core ι :=
  match prog.stepLoop c op with
  | some l => l.final sim
  | none =>
    match op with
    | .reset => (sim.avrReset c).1
    | .setReg index value => c.setReg index value
    | .setRegPair low value => c.setRegPair low value
    | .setData addr value => c.setByte prog.part.ramend addr value
    | .setSreg value => c.setSreg value
    | _ => c

/-- The samples an operation takes. -/
def samplesDuring (sim : Simavr ι) (prog : Program) (c : Core ι) (op : Op) : List Sample :=
  match prog.stepLoop c op with
  | some l => (l.cores sim).map Core.sample
  | none => []

/-- The events of a run from the core `c`. -/
def history (sim : Simavr ι) (prog : Program) : Core ι → List Op → List Event
  | _, [] => []
  | c, op :: ops =>
    .issued op c.pc :: (samplesDuring sim prog c op).map .sampled
      ++ history sim prog (coreAfter sim prog c op) ops

/-! ## Operations and the core -/

theorem stepLoop_of_not_steps {prog : Program} {c : Core ι} {op : Op} (h : op.steps = false) :
    prog.stepLoop c op = none := by
  cases op <;> first | rfl | cases h

theorem samplesDuring_of_none (sim : Simavr ι) {prog : Program} {c : Core ι} {op : Op}
    (h : prog.stepLoop c op = none) : samplesDuring sim prog c op = [] := by
  unfold samplesDuring
  rw [h]

theorem samplesDuring_of_some (sim : Simavr ι) {prog : Program} {c : Core ι} {op : Op}
    {l : StepLoop ι} (h : prog.stepLoop c op = some l) :
    samplesDuring sim prog c op = (l.cores sim).map Core.sample := by
  unfold samplesDuring
  rw [h]

theorem coreAfter_of_some (sim : Simavr ι) {prog : Program} {c : Core ι} {op : Op}
    {l : StepLoop ι} (h : prog.stepLoop c op = some l) : coreAfter sim prog c op = l.final sim := by
  unfold coreAfter
  rw [h]

/-- A stepping operation that has no loop is a call of an undefined symbol, and does nothing. -/
theorem exec_of_stepLoop_none (sim : Simavr ι) {m : Mcu ι} {op : Op} (hs : op.steps = true)
    (h : m.prog.stepLoop m.avr op = none) : (exec sim m op).2 = m := by
  cases op with
  | call symbol cycleBudget =>
    by_cases hd : noAddress = m.prog.address symbol
    · exact congrArg Prod.snd (Mcu.call_of_undefined sim cycleBudget hd.symm)
    · simp [Program.stepLoop, hd] at h
  | run cycles => cases h
  | runUntil symbol cycleBudget =>
    by_cases hd : noAddress = m.prog.address symbol
    · exact congrArg Prod.snd (Mcu.runUntil_of_undefined sim cycleBudget hd.symm)
    · simp [Program.stepLoop, hd] at h
  | _ => cases hs

/-- **What an operation does to the core does not depend on what is being measured.** -/
theorem exec_avr (sim : Simavr ι) (m : Mcu ι) (op : Op) :
    (exec sim m op).2.avr = coreAfter sim m.prog m.avr op := by
  cases hl : m.prog.stepLoop m.avr op with
  | some l => rw [exec_snd_of_stepLoop sim hl, coreAfter_of_some sim hl, Mcu.runLoop_avr]
  | none =>
    unfold coreAfter
    rw [hl]
    cases hs : op.steps with
    | true =>
      rw [exec_of_stepLoop_none sim hs hl]
      cases op <;> first | rfl | cases hs
    | false =>
      cases op with
      | trace symbol => exact Mcu.trace_avr m symbol
      | watchStack low high => exact Mcu.watchStack_avr m low high
      | call symbol cycleBudget => cases hs
      | run cycles => cases hs
      | runUntil symbol cycleBudget => cases hs
      | _ => rfl

@[simp] theorem exec_prog (sim : Simavr ι) (m : Mcu ι) (op : Op) :
    (exec sim m op).2.prog = m.prog := by
  cases hl : m.prog.stepLoop m.avr op with
  | some l => rw [exec_snd_of_stepLoop sim hl, Mcu.runLoop_prog]
  | none =>
    cases hs : op.steps with
    | true => rw [exec_of_stepLoop_none sim hs hl]
    | false =>
      cases op with
      | trace symbol => exact Mcu.trace_prog m symbol
      | watchStack low high => exact Mcu.watchStack_prog m low high
      | call symbol cycleBudget => cases hs
      | run cycles => cases hs
      | runUntil symbol cycleBudget => cases hs
      | _ => rfl

@[simp] theorem runOps_prog (sim : Simavr ι) : ∀ (m : Mcu ι) (ops : List Op),
    (runOps sim m ops).prog = m.prog
  | _, [] => rfl
  | m, op :: ops => by rw [runOps_cons, runOps_prog sim _ ops, exec_prog]

/-- The core after a list of operations. -/
theorem runOps_avr (sim : Simavr ι) : ∀ (m : Mcu ι) (ops : List Op),
    (runOps sim m ops).avr = ops.foldl (coreAfter sim m.prog) m.avr
  | _, [] => rfl
  | m, op :: ops => by
    rw [runOps_cons, runOps_avr sim _ ops, exec_prog, exec_avr, List.foldl_cons]

theorem history_append (sim : Simavr ι) (prog : Program) :
    ∀ (c : Core ι) (ops ops' : List Op),
      history sim prog c (ops ++ ops')
        = history sim prog c ops ++ history sim prog (ops.foldl (coreAfter sim prog) c) ops'
  | _, [], _ => rfl
  | c, op :: ops, ops' => by
    rw [List.cons_append, history, history, history_append sim prog _ ops ops',
      List.append_assoc, List.foldl_cons]

/-! ## The cycle counter -/

/-- The counter never goes down while the core runs. -/
def Simavr.NeverRewinds (sim : Simavr ι) : Prop := ∀ c : Core ι, c.cycle ≤ (sim.next c).cycle

theorem stepLoop_start_cycle {prog : Program} {c : Core ι} {op : Op} {l : StepLoop ι}
    (h : prog.stepLoop c op = some l) : l.start.cycle = c.cycle := by
  cases op with
  | call symbol cycleBudget =>
    simp only [Program.stepLoop] at h
    split at h
    · cases h
    · cases h; rfl
  | run cycles => cases h; rfl
  | runUntil symbol cycleBudget =>
    simp only [Program.stepLoop] at h
    split at h
    · cases h
    · cases h; rfl
  | _ => cases h

/-- Only the stepping operations and `reset` touch the counter. -/
theorem coreAfter_cycle (sim : Simavr ι) {prog : Program} {c : Core ι} {op : Op}
    (h : prog.stepLoop c op = none) (hop : op ≠ .reset) :
    (coreAfter sim prog c op).cycle = c.cycle := by
  unfold coreAfter
  rw [h]
  cases op with
  | reset => exact absurd rfl hop
  | setReg index value =>
    show (c.setReg index value).cycle = c.cycle
    unfold Core.setReg
    split <;> rfl
  | setRegPair low value =>
    show ((c.setReg low _).setReg (low + 1) _).cycle = c.cycle
    unfold Core.setReg
    split <;> split <;> rfl
  | setData addr value =>
    show (c.setByte prog.part.ramend addr value).cycle = c.cycle
    unfold Core.setByte
    split <;> rfl
  | _ => rfl

/-- Short of a reset, the samples of an operation go up from the core before to the core after. -/
theorem samplesDuring_sorted {sim : Simavr ι} (hmono : sim.NeverRewinds) {prog : Program}
    {c : Core ι} {op : Op} (hop : op ≠ .reset) :
    (samplesDuring sim prog c op).Pairwise (fun x y => x.cycle ≤ y.cycle)
      ∧ (∀ x ∈ samplesDuring sim prog c op,
          c.cycle ≤ x.cycle ∧ x.cycle ≤ (coreAfter sim prog c op).cycle)
      ∧ c.cycle ≤ (coreAfter sim prog c op).cycle := by
  cases hl : prog.stepLoop c op with
  | none =>
    rw [samplesDuring_of_none sim hl, coreAfter_cycle sim hl hop]
    exact ⟨List.Pairwise.nil, fun _ hx => absurd hx List.not_mem_nil, UInt64.le_refl _⟩
  | some l =>
    have hnat : ∀ c : Core ι, c.cycle.toNat ≤ (sim.next c).cycle.toNat := hmono
    obtain ⟨hsorted, hbounds⟩ :
        (l.cores sim).Pairwise (fun x y => x.cycle.toNat ≤ y.cycle.toNat) ∧ _ :=
      visited_sorted hnat l.cap l.start
    have hstart : l.start.cycle = c.cycle := stepLoop_start_cycle hl
    rw [samplesDuring_of_some sim hl, coreAfter_of_some sim hl, ← hstart]
    refine ⟨List.pairwise_map.mpr hsorted, fun x hx => ?_, ?_⟩
    · obtain ⟨c', hc', rfl⟩ := List.mem_map.mp hx
      exact hbounds c' hc'
    · exact stepWhile_induction (P := fun c' => l.start.cycle.toNat ≤ c'.cycle.toNat)
        (fun c' h => Nat.le_trans h (hnat c')) l.cap l.start (Nat.le_refl _)

/-! ## Observers -/

/--
Something the harness measures: a view of the machine that each event updates, whatever the rest
of the machine is. The stepping operations themselves are not seen, only their samples.
-/
structure Observer (sim : Simavr ι) (β : Type) where
  view : Mcu ι → β
  see : Program → β → Event → β
  view_start : ∀ (m : Mcu ι) (c : Core ι), view { m with avr := c } = view m
  view_tick : ∀ m : Mcu ι,
    view (m.tick sim) = see m.prog (view m) (.sampled (sim.next m.avr).sample)
  see_steps : ∀ (prog : Program) (b : β) (op : Op) (pc : UInt32), op.steps = true →
    see prog b (.issued op pc) = b
  view_exec : ∀ (m : Mcu ι) (op : Op), op.steps = false →
    view (exec sim m op).2 = see m.prog (view m) (.issued op m.avr.pc)

namespace Observer

variable {sim : Simavr ι} {β : Type} (o : Observer sim β)

/-- Over a loop the observer sees each sample in turn. -/
theorem view_runLoop (l : StepLoop ι) (m : Mcu ι) :
    o.view (m.runLoop sim l)
      = ((l.cores sim).map fun c => Event.sampled c.sample).foldl (o.see m.prog) (o.view m) := by
  -- the program is carried along, since the observer may consult it
  let π : Mcu ι → Program × β := fun m => (m.prog, o.view m)
  let obs : Program × β → Mcu ι → Program × β := fun p m =>
    (p.1, o.see p.1 p.2 (.sampled m.avr.sample))
  have hstep : ∀ m : Mcu ι, π (m.tick sim) = obs (π m) (m.tick sim) := fun m => by
    simp only [π, obs, Mcu.tick_prog, o.view_tick, Mcu.tick_avr]
  have hrun : π (m.runLoop sim l)
      = (visited (fun m : Mcu ι => l.go m.avr) (Mcu.tick sim) l.cap { m with avr := l.start }).foldl
          obs (π { m with avr := l.start }) :=
    stepWhile_foldl hstep l.cap _
  have hcores : (visited (fun m : Mcu ι => l.go m.avr) (Mcu.tick sim) l.cap
      { m with avr := l.start }).map Mcu.avr = l.cores sim :=
    visited_map (Mcu.tick_avr sim) (fun _ => rfl) l.cap _
  have hfold : ∀ (ms : List (Mcu ι)) (p : Program × β),
      (ms.foldl obs p).2
        = ((ms.map Mcu.avr).map fun c => Event.sampled c.sample).foldl (o.see p.1) p.2 := by
    intro ms
    induction ms with
    | nil => exact fun _ => rfl
    | cons m' ms ih => exact fun p => ih (obs p m')
  have hview := congrArg Prod.snd hrun
  rw [hfold, hcores] at hview
  rw [← o.view_start m l.start]
  exact hview

theorem view_exec_foldl (m : Mcu ι) (op : Op) :
    o.view (exec sim m op).2
      = (.issued op m.avr.pc :: (samplesDuring sim m.prog m.avr op).map Event.sampled).foldl
          (o.see m.prog) (o.view m) := by
  rw [List.foldl_cons]
  cases hs : op.steps with
  | true =>
    rw [o.see_steps m.prog _ op _ hs]
    cases hl : m.prog.stepLoop m.avr op with
    | some l =>
      rw [exec_snd_of_stepLoop sim hl, samplesDuring_of_some sim hl, o.view_runLoop, List.map_map]
      rfl
    | none =>
      rw [exec_of_stepLoop_none sim hs hl, samplesDuring_of_none sim hl]
      rfl
  | false =>
    rw [samplesDuring_of_none sim (stepLoop_of_not_steps hs)]
    exact o.view_exec m op hs

/-- **An observer ends up with the fold of what it sees over the history.** -/
theorem view_runOps : ∀ (m : Mcu ι) (ops : List Op),
    o.view (runOps sim m ops) = (history sim m.prog m.avr ops).foldl (o.see m.prog) (o.view m)
  | _, [] => rfl
  | m, op :: ops => by
    rw [runOps_cons, view_runOps _ ops, history, List.foldl_append, ← o.view_exec_foldl,
      exec_prog, exec_avr]

end Observer

end Avrsim
