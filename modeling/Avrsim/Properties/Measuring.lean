import Avrsim.Properties.ExitCode
import Avrsim.Properties.Independence
import Avrsim.Properties.Paint

/-!
# Steps that only measure

`--watch`, `--trace` and `--stack` register something to record. A command line without them runs
the same program: the same exit code, the same lines, less those that announce or report what is
recorded, and the same core at the end.

* `SameRun` — two machines that only what they record tells apart
* `execute_measuring`, `execute_sameRun` — a step that only measures, and one that does not
* `run_without_measuring` — two whole command lines
-/

namespace Avrsim.Tool

variable {ι : Type}

/-! ## What measures -/

/-- The steps that only register something to record. -/
def Step.measures : Step → Bool
  | .watchPin _ | .traceSymbol _ | .watchStack _ => true
  | _ => false

/-- The lines that announce or report something that is recorded. -/
def Line.measures : Line → Bool
  | .watching _ _ | .tracing _ | .watchingStack _ _ => true
  | .pinLog _ _ _ | .traceLog _ _ | .neverEntered | .visitCosts _ _ _ => true
  | .gap _ _ _ | .moreGaps _ | .stack _ _ _ => true
  | _ => false

/-- What is printed apart from these. -/
def others (lines : List Line) : List Line := lines.filter fun line => !line.measures

theorem others_append (lines lines' : List Line) :
    others (lines ++ lines') = others lines ++ others lines' := List.filter_append _ _

theorem others_eq_nil {lines : List Line} (h : ∀ line ∈ lines, line.measures = true) :
    others lines = [] :=
  List.filter_eq_nil_iff.mpr fun line hline => by simp [h line hline]

/-! ## Machines -/

/-- Two machines that only what they record tells apart, the watermark aside. -/
structure SameRun (sim : Simavr ι) (m m' : Mcu ι) : Prop extends (markObserver sim).Agree m m' where
  clock : m.clockHz = m'.clockHz

theorem clockHz_runLoop (sim : Simavr ι) (l : StepLoop ι) (m : Mcu ι) :
    (m.runLoop sim l).clockHz = m.clockHz :=
  Infra.Loop.stepWhile_induction (f := Mcu.tick sim) (P := fun m' => m'.clockHz = m.clockHz)
    (fun _ h => h) l.cap _ rfl

/-- No operation changes the clock. -/
theorem clockHz_exec (sim : Simavr ι) (m : Mcu ι) (op : Op) :
    (exec sim m op).2.clockHz = m.clockHz := by
  cases hl : m.prog.stepLoop m.avr op with
  | some l => rw [exec_snd_of_stepLoop sim hl, clockHz_runLoop]
  | none =>
    cases hs : op.steps with
    | true => rw [exec_of_stepLoop_none sim hs hl]
    | false =>
      cases op with
      | trace symbol =>
        show (m.trace symbol).clockHz = m.clockHz
        unfold Mcu.trace
        split <;> rfl
      | watchStack low high =>
        show (m.watchStack low high).clockHz = m.clockHz
        unfold Mcu.watchStack
        split <;> rfl
      | call symbol cycleBudget => cases hs
      | run cycles => cases hs
      | runUntil symbol cycleBudget => cases hs
      | _ => rfl

namespace SameRun

variable {sim : Simavr ι} {m m' : Mcu ι} (h : SameRun sim m m')

include h

/-- An operation returns the same, and leaves machines that are told apart by nothing else. -/
theorem exec (op : Op) : (exec sim m op).1 = (exec sim m' op).1
    ∧ SameRun sim (exec sim m op).2 (exec sim m' op).2 := by
  refine ⟨?_, h.toAgree.exec op, ?_⟩
  · rw [exec_fst, exec_fst, h.prog, h.avr]
  · rw [clockHz_exec, clockHz_exec, h.clock]

theorem call (symbol : String) (cycleBudget : UInt64) :
    (m.call sim symbol cycleBudget).1 = (m'.call sim symbol cycleBudget).1
      ∧ SameRun sim (m.call sim symbol cycleBudget).2 (m'.call sim symbol cycleBudget).2 := by
  obtain ⟨hresult, hcall⟩ := h.exec (.call symbol cycleBudget)
  exact ⟨Outcome.call.inj hresult, hcall⟩

theorem runUntil (symbol : String) (cycleBudget : UInt64) :
    (m.runUntil sim symbol cycleBudget).1 = (m'.runUntil sim symbol cycleBudget).1
      ∧ SameRun sim (m.runUntil sim symbol cycleBudget).2
          (m'.runUntil sim symbol cycleBudget).2 := by
  obtain ⟨hresult, hrun⟩ := h.exec (.runUntil symbol cycleBudget)
  exact ⟨Outcome.call.inj hresult, hrun⟩

theorem run (cycles : UInt64) :
    (m.run sim cycles).1 = (m'.run sim cycles).1
      ∧ SameRun sim (m.run sim cycles).2 (m'.run sim cycles).2 := by
  obtain ⟨hcycles, hrun⟩ := h.exec (.run cycles)
  exact ⟨Outcome.cycles.inj hcycles, hrun⟩

/-- A registration on one side. -/
theorem register (op : Op) (hr : op.registers = true) :
    SameRun sim (Avrsim.exec sim m op).2 m' := by
  refine ⟨h.toAgree.skip hr ?_, ?_⟩
  · cases op <;> first | rfl | cases hr
  · rw [clockHz_exec, h.clock]

theorem watch {port : Char} {bit : UInt8} {m₁ : Mcu ι} (hwatch : m.watch sim port bit = .ok m₁) :
    SameRun sim m₁ m' := by
  unfold Mcu.watch at hwatch
  split at hwatch
  · cases hwatch
    exact h
  · split at hwatch
    · cases hwatch
      exact ⟨⟨h.prog, h.avr, h.view⟩, h.clock⟩
    · cases hwatch

theorem drive (port : Char) (bit : UInt8) (level : Bool) :
    SameRun sim (m.drive sim port bit level) (m'.drive sim port bit level) := by
  unfold Mcu.drive
  split
  · rw [h.avr]
    exact ⟨⟨h.prog, rfl, h.view⟩, h.clock⟩
  · exact h

end SameRun

/-! ## Steps -/

/-- A session, and one that has done the same without the steps that only measure. -/
structure Without (sim : Simavr ι) (s s' : Session ι) : Prop where
  mcu : SameRun sim s.mcu s'.mcu
  status : s'.status = s.status
  painted : s'.painted = s.painted
  output : s'.output = others s.output
  unwatched : s'.watched = []
  untraced : s'.traced = []
  unstacked : s'.stackRanges = []

namespace Without

variable {sim : Simavr ι} {s s' : Session ι} (h : Without sim s s')

include h

/-- A step that only measures is not missed. -/
theorem measuring {step : Step} (hstep : step.measures = true) {s₁ : Session ι}
    (hexec : s.execute sim step = .ok s₁) : Without sim s₁ s' := by
  have hannounced : ∀ line : Line, line.measures = true →
      s'.output = others (s.output ++ [line]) := by
    intro line hline
    have hnone : others [line] = [] := others_eq_nil (by simp [hline])
    rw [others_append, hnone, List.append_nil, h.output]
  cases step with
  | traceSymbol symbol =>
    cases hexec
    exact ⟨h.mcu.register (.trace symbol) rfl, h.status, h.painted, hannounced _ rfl,
      h.unwatched, h.untraced, h.unstacked⟩
  | watchStack region =>
    cases hexec
    exact ⟨h.mcu.register (.watchStack region.low region.high) rfl, h.status, h.painted,
      hannounced _ rfl, h.unwatched, h.untraced, h.unstacked⟩
  | watchPin drive =>
    obtain ⟨m, hwatch, hexec⟩ := bind_eq_ok.mp hexec
    cases hexec
    exact ⟨h.mcu.watch hwatch, h.status, h.painted, hannounced _ rfl, h.unwatched, h.untraced,
      h.unstacked⟩
  | _ => cases hstep

/-- A step that does not only measure. -/
theorem printed {m m' : Mcu ι} (hm : SameRun sim m m') {status status' : Nat}
    (hstatus : status' = status) (lines : List Line)
    (hlines : lines.all (fun line => !line.measures) = true) :
    Without sim ({ s with mcu := m, status := status }.print lines)
      ({ s' with mcu := m', status := status' }.print lines) := by
  refine ⟨hm, hstatus, h.painted, ?_, h.unwatched, h.untraced, h.unstacked⟩
  show s'.output ++ lines = others (s.output ++ lines)
  have hall : others lines = lines := List.filter_eq_self.mpr (List.all_eq_true.mp hlines)
  rw [others_append, hall, h.output]

end Without

/-- Any other step does the same, and prints the same. -/
theorem Without.execute {sim : Simavr ι} {s s' : Session ι} (h : Without sim s s') {step : Step}
    (hstep : step.measures = false) {s₁ : Session ι} (hexec : s.execute sim step = .ok s₁) :
    ∃ s₁', s'.execute sim step = .ok s₁' ∧ Without sim s₁ s₁' := by
  cases step with
  | drivePin drive =>
    cases hexec
    have hrun := (h.mcu.drive drive.port drive.bit drive.level).run 4
    exact ⟨_, rfl, h.printed hrun.2 h.status _ rfl⟩
  | freeRun cycles =>
    obtain ⟨hran, hrun⟩ := h.mcu.run cycles
    have hform : ∀ s : Session ι, s.execute sim (.freeRun cycles)
        = .ok ({ s with mcu := (s.mcu.run sim cycles).2 }.print [.ran (s.mcu.run sim cycles).1]) :=
      fun _ => rfl
    rw [hform] at hexec ⊢
    cases hexec
    rw [hran]
    exact ⟨_, rfl, h.printed hrun h.status _ rfl⟩
  | paintRegion region =>
    cases hexec
    have hpaint : SameRun sim (paint region s.mcu) (paint region s'.mcu) :=
      paint_rel region (fun addr _ _ h => (h.exec (.setData addr region.value)).2) h.mcu
    have hprint := h.printed hpaint h.status [.painted region] rfl
    refine ⟨_, rfl, hprint.mcu, hprint.status, ?_, hprint.output, hprint.unwatched, hprint.untraced,
      hprint.unstacked⟩
    show s'.painted ++ [region] = s.painted ++ [region]
    rw [h.painted]
  | runUntil symbol =>
    obtain ⟨hresult, hrun⟩ := h.mcu.runUntil symbol defaultBudget
    simp only [Session.execute, hresult] at hexec ⊢
    split at hexec
    · next hreturned =>
      cases hexec
      rw [if_pos hreturned]
      exact ⟨_, rfl, h.printed hrun h.status _ rfl⟩
    · next hreturned =>
      cases hexec
      rw [if_neg hreturned]
      exact ⟨_, rfl, h.printed hrun rfl _ rfl⟩
  | callSymbol call =>
    have hargs : SameRun sim
        ((s.mcu.setRegPair wordArgumentRegister call.wordArgument).setReg byteArgumentRegister
          call.byteArgument)
        ((s'.mcu.setRegPair wordArgumentRegister call.wordArgument).setReg byteArgumentRegister
          call.byteArgument) :=
      ((h.mcu.exec (.setRegPair wordArgumentRegister call.wordArgument)).2.exec
        (.setReg byteArgumentRegister call.byteArgument)).2
    obtain ⟨hresult, hcall⟩ := hargs.call call.symbol defaultBudget
    have hreg := congrArg (fun c : Core ι => c.reg resultRegister) hcall.avr
    simp only [Session.execute, Mcu.reg, hresult, hreg, hcall.clock] at hexec ⊢
    split at hexec
    · next hreturned =>
      cases hexec
      rw [if_pos hreturned]
      exact ⟨_, rfl, (h.printed hcall h.status [.called call] rfl).printed hcall rfl _ rfl⟩
    · next hreturned =>
      cases hexec
      rw [if_neg hreturned]
      exact ⟨_, rfl, (h.printed hcall h.status [.called call] rfl).printed hcall h.status _ rfl⟩
  | _ => cases hstep

/-- All steps, on one side without those that only measure. -/
theorem Without.executeAll {sim : Simavr ι} : ∀ {steps : List Step} {s s' s₁ : Session ι},
    Without sim s s' → s.executeAll sim steps = .ok s₁ →
      ∃ s₁', s'.executeAll sim (steps.filter fun step => !step.measures) = .ok s₁'
        ∧ Without sim s₁ s₁'
  | [], _, s', _, h, hall => by
    cases hall
    exact ⟨s', rfl, h⟩
  | step :: steps, s, s', s₁, h, hall => by
    obtain ⟨s₂, hstep, hrest⟩ := bind_eq_ok.mp hall
    cases hm : step.measures with
    | true =>
      rw [List.filter_cons_of_neg (by simp [hm])]
      exact (h.measuring hm hstep).executeAll hrest
    | false =>
      obtain ⟨s₂', hstep', h₂⟩ := h.execute hm hstep
      obtain ⟨s₁', hrest', h₁⟩ := h₂.executeAll hrest
      rw [List.filter_cons_of_pos (by simp [hm])]
      exact ⟨s₁', bind_eq_ok.mpr ⟨s₂', hstep', hrest'⟩, h₁⟩

/-! ## Reports -/

theorem measures_gapLines (count : Nat) (gap : Nat → Nat → UInt64) :
    ∀ line ∈ gapLines count gap, line.measures = true := by
  intro line hline
  unfold gapLines at hline
  rcases List.mem_append.mp hline with h | h
  · obtain ⟨step, -, rfl⟩ := List.mem_map.mp h
    rfl
  · split at h
    · rw [List.mem_singleton.mp h]
      rfl
    · cases h

theorem others_pinLines (m : Mcu ι) (pin : PinKey) : others (pinLines m pin) = [] := by
  refine others_eq_nil fun line hline => ?_
  rcases List.mem_cons.mp hline with rfl | hline
  · rfl
  · exact measures_gapLines _ _ line hline

theorem others_traceLines (m : Mcu ι) (symbol : String) : others (traceLines m symbol) = [] := by
  refine others_eq_nil fun line hline => ?_
  unfold traceLines at hline
  simp only at hline
  split at hline
  · simp only [List.mem_cons, List.not_mem_nil, or_false] at hline
    rcases hline with rfl | rfl <;> rfl
  · rcases List.mem_cons.mp hline with rfl | hline
    · rfl
    · rcases List.mem_cons.mp hline with rfl | hline
      · rfl
      · exact measures_gapLines _ _ line hline

theorem others_stackLines (m : Mcu ι) (range : UInt16 × UInt16) :
    others (stackLines m range) = [] := rfl

theorem others_paintLines (m : Mcu ι) (region : Region) :
    others (paintLines m region) = paintLines m region := by
  simp only [paintLines]
  split <;> rfl

theorem others_deepestLines (m : Mcu ι) : others (deepestLines m) = deepestLines m := by
  unfold deepestLines
  split <;> rfl

theorem others_flatMap_eq_nil {α : Type} {lines : α → List Line} (h : ∀ a, others (lines a) = []) :
    ∀ as : List α, others (as.flatMap lines) = []
  | [] => rfl
  | a :: as => by
    rw [List.flatMap_cons, others_append, h a, others_flatMap_eq_nil h as]
    rfl

theorem others_flatMap_eq_self {α : Type} {lines : α → List Line}
    (h : ∀ a, others (lines a) = lines a) : ∀ as : List α,
      others (as.flatMap lines) = as.flatMap lines
  | [] => rfl
  | a :: as => by
    rw [List.flatMap_cons, others_append, h a, others_flatMap_eq_self h as]

/-- The report is that of the other steps. -/
theorem Without.report {sim : Simavr ι} {s s' : Session ι} (h : Without sim s s') :
    s'.report = others s.report := by
  have hdata : s.mcu.data = s'.mcu.data := by
    unfold Mcu.data
    rw [h.mcu.prog, h.mcu.avr]
  have hpaint : paintLines s'.mcu = paintLines s.mcu := paintLines_congr hdata.symm
  have hdeepest : deepestLines s'.mcu = deepestLines s.mcu := by
    have hlowest : s.mcu.lowestStackPtr = s'.mcu.lowestStackPtr := h.mcu.view
    unfold deepestLines
    rw [hlowest]
  unfold Session.report
  rw [h.unwatched, h.untraced, h.unstacked, h.painted, hpaint, hdeepest]
  simp only [others_append, others_flatMap_eq_nil (others_pinLines s.mcu),
    others_flatMap_eq_nil (others_traceLines s.mcu),
    others_flatMap_eq_nil (others_stackLines s.mcu),
    others_flatMap_eq_self (others_paintLines s.mcu), others_deepestLines]
  rfl

/-! ## Command lines -/

/-- What the tool has done when it has executed some steps. -/
structure Executes (sim : Simavr ι) (files : Files) (image : String) (steps : List Step)
    (m : Mcu ι) (s : Session ι) : Prop where
  load : Mcu.load sim files image defaultClockHz = .ok m
  defined : firstUndefined m steps = none
  all : (Session.start m).executeAll sim steps = .ok s

theorem not_lt_of_stepsOf {argv : List String} {steps : List Step}
    (hsteps : stepsOf argv = .ok (some steps)) (hne : steps ≠ []) :
    ¬ minimumArguments > argv.length := by
  have hempty : steps.isEmpty = (argv.drop firstStepArgument).isEmpty :=
    (parseSteps_spec _ hsteps).2 steps rfl
  intro hlt
  have hlt' : argv.length < 3 := hlt
  have hdrop : argv.drop 2 = [] := List.drop_eq_nil_of_le (by omega)
  have hnil : argv.drop firstStepArgument = [] := hdrop
  rw [hnil, List.isEmpty_nil, List.isEmpty_iff] at hempty
  exact hne hempty

/-- Steps that can be executed are. -/
theorem run_of_executes {sim : Simavr ι} {files : Files} {argv : List String} {steps : List Step}
    (hsteps : stepsOf argv = .ok (some steps)) (hne : steps ≠ []) {m : Mcu ι} {s : Session ι}
    (h : Executes sim files (argv.getD imageArgument "") steps m s) :
    run sim files argv = .ok ⟨s.status, s.output ++ s.report, some s.mcu⟩ := by
  have hparse : parseSteps (argv.drop firstStepArgument) = .ok (some steps) := hsteps
  rw [run, if_neg (not_lt_of_stepsOf hsteps hne), hparse]
  refine bind_eq_ok.mpr ⟨some steps, rfl, ?_⟩
  simp only
  rw [if_neg (by simpa using hne)]
  refine bind_eq_ok.mpr ⟨m, h.load, ?_⟩
  rw [h.defined]
  exact bind_eq_ok.mpr ⟨s, h.all, rfl⟩

/-- What has not been refused has been executed. -/
theorem executes_of_run {sim : Simavr ι} {files : Files} {argv : List String} {r : Result ι}
    {steps : List Step} (hrun : run sim files argv = .ok r) (hcode : r.code ≠ usageError)
    (hsteps : stepsOf argv = .ok (some steps)) :
    ∃ m s, Executes sim files (argv.getD imageArgument "") steps m s
      ∧ r = ⟨s.status, s.output ++ s.report, some s.mcu⟩ := by
  have hparse : parseSteps (argv.drop firstStepArgument) = .ok (some steps) := hsteps
  unfold run at hrun
  split at hrun
  · cases hrun
    exact absurd rfl hcode
  · rw [hparse] at hrun
    obtain ⟨parsed, hparsed, hrun⟩ := bind_eq_ok.mp hrun
    cases hparsed
    simp only at hrun
    split at hrun
    · cases hrun
      exact absurd rfl hcode
    · obtain ⟨m, hload, hrun⟩ := bind_eq_ok.mp hrun
      cases hfirst : firstUndefined m steps with
      | some symbol =>
        rw [hfirst] at hrun
        cases hrun
        exact absurd rfl hcode
      | none =>
        rw [hfirst] at hrun
        obtain ⟨s, hall, hrun⟩ := bind_eq_ok.mp hrun
        cases hrun
        exact ⟨m, s, ⟨hload, hfirst, hall⟩, rfl⟩

/--
**A command line does the same without the steps that only measure.** If the tool executes the steps
of `argv`, and those of `argv'` are the same less those that only measure, with one left at least:
then the tool executes `argv'`, with the same exit code, the same core at the end, and the same
lines printed in the same order, except for those that announce or report a measurement.
-/
theorem run_without_measuring {sim : Simavr ι} {files : Files} {argv argv' : List String}
    {r : Result ι} {steps : List Step} (hrun : run sim files argv = .ok r)
    (hcode : r.code ≠ usageError) (hsteps : stepsOf argv = .ok (some steps))
    (hsteps' : stepsOf argv' = .ok (some (steps.filter fun step => !step.measures)))
    (himage : argv'.getD imageArgument "" = argv.getD imageArgument "")
    (hrest : steps.filter (fun step => !step.measures) ≠ []) :
    ∃ r', run sim files argv' = .ok r' ∧ r'.code = r.code
      ∧ r'.output = r.output.filter (fun line => !line.measures)
      ∧ r'.mcu.map Mcu.avr = r.mcu.map Mcu.avr := by
  obtain ⟨m, s, hexec, rfl⟩ := executes_of_run hrun hcode hsteps
  have hstart : Without sim (Session.start m) (Session.start m) :=
    ⟨⟨⟨rfl, rfl, rfl⟩, rfl⟩, rfl, rfl, rfl, rfl, rfl, rfl⟩
  obtain ⟨s', hall, h⟩ := hstart.executeAll hexec.all
  -- the symbols of fewer steps are defined as well
  have hdefined : firstUndefined m (steps.filter fun step => !step.measures) = none := by
    refine List.find?_eq_none.mpr fun symbol hsymbol =>
      List.find?_eq_none.mp hexec.defined symbol ?_
    exact (List.filter_sublist.filterMap Step.symbol?).mem hsymbol
  have hexec' : Executes sim files (argv'.getD imageArgument "")
      (steps.filter fun step => !step.measures) m s' := by
    rw [himage]
    exact ⟨hexec.load, hdefined, hall⟩
  refine ⟨_, run_of_executes hsteps' hrest hexec', h.status, ?_, ?_⟩
  · show s'.output ++ s'.report = others (s.output ++ s.report)
    rw [others_append, h.output, h.report]
  · show some s'.mcu.avr = some s.mcu.avr
    rw [h.mcu.avr]

/-- A run that is traced, and whose stack is watched, and the run alone. -/
theorem run_without_measuring_turns :
    ∃ r r', run Isa.simavr Isa.turnsFiles
          ["avrsim", "app.elf", "--trace", "f", "--run", "9", "--stack", "0x0100:0x01FF"] = .ok r
      ∧ run Isa.simavr Isa.turnsFiles ["avrsim", "app.elf", "--run", "9"] = .ok r'
      ∧ r'.output = r.output.filter fun line => !line.measures := by
  have hcode : (run Isa.simavr Isa.turnsFiles
      ["avrsim", "app.elf", "--trace", "f", "--run", "9", "--stack", "0x0100:0x01FF"]).toOption.map
        Result.code = some 0 := by decide +kernel
  cases hrun : run Isa.simavr Isa.turnsFiles
      ["avrsim", "app.elf", "--trace", "f", "--run", "9", "--stack", "0x0100:0x01FF"] with
  | error message =>
    rw [hrun] at hcode
    cases hcode
  | ok r =>
    rw [hrun] at hcode
    have hzero : r.code = 0 := Option.some.inj hcode
    have hsteps : stepsOf
        ["avrsim", "app.elf", "--trace", "f", "--run", "9", "--stack", "0x0100:0x01FF"]
          = .ok (some [.traceSymbol "f", .freeRun 9, .watchStack ⟨0x0100, 0x01FF, 0⟩]) := by
      decide +kernel
    have hsteps' : stepsOf ["avrsim", "app.elf", "--run", "9"]
        = .ok (some ([.traceSymbol "f", .freeRun 9, .watchStack ⟨0x0100, 0x01FF, 0⟩].filter
          fun step => !step.measures)) := by
      decide +kernel
    obtain ⟨r', hrun', -, houtput, -⟩ := run_without_measuring hrun (by rw [hzero]; decide) hsteps
      hsteps' rfl (by decide)
    exact ⟨r, r', rfl, hrun', houtput⟩

end Avrsim.Tool
