import Mathlib.Data.List.Find
import Avrsim.Properties.ExitCode
import Avrsim.Properties.ImageFormats
import Avrsim.Properties.LateTraces
import Avrsim.Properties.Paint

/-!
# The tool and the two image formats

The courses hand out a hex with its map or an ELF, and the same command line is run on either. The
tool prints the same for both, unless it names a symbol that only one of them has: the data symbols,
which a map leaves out.

* `Session.execute_withProg` — a step, with either program
* `run_images` — the tool, with either image
-/

namespace Avrsim.Tool

variable {ι : Type}

/-- The same session with another program. -/
def Session.withProg (prog : Program) (s : Session ι) : Session ι :=
  { s with mcu := s.mcu.withProg prog }

/-- Painting asks the program for nothing but the part. -/
theorem paint_withProg {prog : Program} (region : Region) {m : Mcu ι}
    (hpart : m.prog.part = prog.part) :
    paint region (m.withProg prog) = (paint region m).withProg prog := by
  let S : Mcu ι → Mcu ι → Prop := fun m m' => m' = m.withProg prog ∧ m.prog.part = prog.part
  have hset : ∀ (addr : UInt16) (m m' : Mcu ι), S m m' →
      S (m.setData addr region.value) (m'.setData addr region.value) := by
    rintro addr m _ ⟨rfl, hpart⟩
    refine ⟨?_, hpart⟩
    unfold Mcu.setData Mcu.withProg
    rw [hpart]
  exact (paint_rel (S := S) region hset ⟨rfl, hpart⟩).1

section

variable {names : String → Prop} {prog : Program} {s : Session ι}
  (h : s.mcu.prog.Agree names prog)

include h

/-- A step prints the same with either program. -/
theorem Session.execute_withProg (sim : Simavr ι) {step : Step}
    (hstep : ∀ symbol ∈ step.symbol?, names symbol) :
    (s.withProg prog).execute sim step = (s.execute sim step).map (Session.withProg prog) := by
  cases step with
  | drivePin drive =>
    simp only [Session.execute, Session.withProg, Mcu.drive_withProg, Mcu.run_withProg]
    rfl
  | watchPin drive =>
    simp only [Session.execute, Session.withProg, Mcu.watch_withProg]
    cases s.mcu.watch sim drive.port drive.bit <;> rfl
  | traceSymbol symbol =>
    have htrace := trace_withProg h (hstep symbol rfl)
    simp only [Session.execute, Session.withProg, htrace]
    rfl
  | watchStack region =>
    simp only [Session.execute, Session.withProg, Mcu.watchStack_withProg]
    rfl
  | paintRegion region =>
    simp only [Session.execute, Session.withProg, paint_withProg region h.part]
    rfl
  | freeRun cycles =>
    simp only [Session.execute, Session.withProg, Mcu.run_withProg]
    rfl
  | runUntil symbol =>
    have hrun := runUntil_withProg h sim (hstep symbol rfl) defaultBudget
    simp only [Session.execute, Session.withProg, hrun]
    split <;> rfl
  | callSymbol call =>
    -- the arguments are put in registers first, which asks the program for nothing
    let m := (s.mcu.setRegPair wordArgumentRegister call.wordArgument).setReg byteArgumentRegister
      call.byteArgument
    have hm : m.prog.Agree names prog := h
    have hcall := call_withProg hm sim (hstep call.symbol rfl) defaultBudget
    have hargs : ((s.mcu.withProg prog).setRegPair wordArgumentRegister call.wordArgument).setReg
        byteArgumentRegister call.byteArgument = m.withProg prog := rfl
    simp only [Session.execute, Session.withProg, hargs, hcall]
    show _ = Except.map _ (if _ then _ else _)
    split <;> rfl

/-- The report is the same with either program. -/
theorem Session.report_withProg : (s.withProg prog).report = s.report := by
  have hdata : (s.mcu.withProg prog).data = s.mcu.data := by
    unfold Mcu.data
    rw [Mcu.withProg_avr, Mcu.withProg_prog, h.part]
  show _ ++ _ ++ _ ++ s.painted.flatMap (paintLines (s.mcu.withProg prog)) ++ _ = _
  rw [paintLines_congr hdata]
  rfl

end

/-- All steps print the same with either program. -/
theorem Session.executeAll_withProg (sim : Simavr ι) {names : String → Prop} {prog : Program}
    {steps : List Step} {s : Session ι} (h : s.mcu.prog.Agree names prog)
    (hsteps : ∀ step ∈ steps, ∀ symbol ∈ step.symbol?, names symbol) :
    (s.withProg prog).executeAll sim steps
      = (s.executeAll sim steps).map (Session.withProg prog) := by
  induction steps generalizing s with
  | nil => rfl
  | cons step steps ih =>
    rw [Session.executeAll, Session.executeAll,
      Session.execute_withProg h sim (hsteps step List.mem_cons_self)]
    cases hexec : s.execute sim step with
    | error message => rfl
    | ok s₁ =>
      have h₁ : s₁.mcu.prog.Agree names prog := by
        rw [prog_of_session (execute_spec hexec).1]
        exact h
      exact ih h₁ fun step hstep => hsteps step (List.mem_cons_of_mem _ hstep)

/-! ## Either image -/

/-- A line without the path of the image. -/
def Line.forgetImage : Line → Line
  | .undefined _ symbol => .undefined "" symbol
  | line => line

/-- What there is to see of a result: the exit code, the lines, and what the machine records. -/
def Result.shown (r : Result ι) : Nat × List Line × Option (Records ι) :=
  (r.code, r.output.map Line.forgetImage, r.mcu.map Mcu.records)

/-- What the tool does with a machine and some steps: the symbol check, and the steps. -/
def runSteps (sim : Simavr ι) (imagePath : String) (steps : List Step) (m : Mcu ι) :
    Except String (Result ι) :=
  match firstUndefined m steps with
  | some symbol => return ⟨usageError, [.undefined imagePath symbol], some m⟩
  | none => do
    let s ← (Session.start m).executeAll sim steps
    return ⟨s.status, s.output ++ s.report, some s.mcu⟩

/-- Two machines whose programs agree on the names of the steps. -/
theorem shown_of_agree (sim : Simavr ι) {names : String → Prop} {prog : Program} {m : Mcu ι}
    (h : m.prog.Agree names prog) {steps : List Step}
    (hsteps : ∀ step ∈ steps, ∀ symbol ∈ step.symbol?, names symbol) (path path' : String) :
    (runSteps sim path steps m).map Result.shown
      = (runSteps sim path' steps (m.withProg prog)).map Result.shown := by
  have hhas : ∀ symbol ∈ steps.filterMap Step.symbol?,
      (m.withProg prog).has symbol = m.has symbol := fun symbol hmem => by
    obtain ⟨step, hstep, hsymbol⟩ := List.mem_filterMap.mp hmem
    exact congrArg (noAddress != ·) (h.address symbol (hsteps step hstep symbol hsymbol)).symm
  have hundefined : firstUndefined (m.withProg prog) steps = firstUndefined m steps := by
    unfold firstUndefined
    exact List.find?_congr fun symbol hmem => congrArg (!·) (hhas symbol hmem)
  unfold runSteps
  rw [hundefined]
  cases firstUndefined m steps with
  | some symbol => rfl
  | none =>
    have hstart : Session.start (m.withProg prog) = (Session.start m).withProg prog := rfl
    have hagree : (Session.start m).mcu.prog.Agree names prog := h
    have hall := Session.executeAll_withProg sim hagree hsteps
    simp only [hstart, hall]
    cases hexec : (Session.start m).executeAll sim steps with
    | error message => rfl
    | ok s =>
      have hprog : s.mcu.prog.Agree names prog := by
        rw [prog_of_session (executeAll_spec hexec).1]
        exact h
      show Except.ok (s.status, (s.output ++ s.report).map Line.forgetImage, some s.mcu.records)
        = Except.ok (s.status, (s.output ++ (s.withProg prog).report).map Line.forgetImage,
            some (s.mcu.withProg prog).records)
      rw [Session.report_withProg hprog]
      rfl

/--
**The tool cannot tell a hex from an ELF.** For every command line whose symbols are labels, or
names that neither image defines, it exits with the same code, prints the same lines but for the
path of the image, and leaves the same core and records, or it fails with the same message.
-/
theorem run_images {sim : Simavr ι} {disk : Disk} {hexPath elfPath : String}
    (i : TwoImages sim disk hexPath elfPath) (hload : sim.LoadsSection i.firmware)
    (program : String) {args : List String}
    (hnames : ∀ steps, parseSteps args = .ok (some steps) →
      ∀ step ∈ steps, ∀ symbol ∈ step.symbol?, i.Shared symbol) :
    (run sim disk.files (program :: hexPath :: args)).map Result.shown
      = (run sim disk.files (program :: elfPath :: args)).map Result.shown := by
  obtain ⟨symbols, hread, hsymbols⟩ := readMapText_of_mapOf i.map i.nodup
  have hagree := i.agree defaultClockHz hsymbols
  unfold run
  show Except.map _ (if minimumArguments > args.length + 1 + 1 then _ else _)
    = Except.map _ (if minimumArguments > args.length + 1 + 1 then _ else _)
  split
  · rfl
  · show Except.map _ (parseSteps args >>= _) = Except.map _ (parseSteps args >>= _)
    cases hparse : parseSteps args with
    | error message => rfl
    | ok parsed =>
      cases parsed with
      | none => rfl
      | some steps =>
        have hsteps := hnames steps hparse
        show Except.map _ (if steps.isEmpty = true then _ else _)
          = Except.map _ (if steps.isEmpty = true then _ else _)
        split
        · rfl
        · show Except.map _ (Mcu.load sim disk.files hexPath defaultClockHz >>= _)
            = Except.map _ (Mcu.load sim disk.files elfPath defaultClockHz >>= _)
          rw [i.load_hex hread, i.load_elf hload]
          exact shown_of_agree sim hagree hsteps hexPath elfPath

/-- The two functions that take turns, from either image. -/
theorem run_images_turns :
    (run Isa.loading turnsDisk.files
        ["avrsim", "app.hex", "--trace", "f", "--until", "f", "--run", "9"]).map Result.shown
      = (run Isa.loading turnsDisk.files
        ["avrsim", "app.elf", "--trace", "f", "--until", "f", "--run", "9"]).map
          Result.shown := by
  refine run_images turnsImages (fun _ _ => rfl) "avrsim" fun steps hsteps => ?_
  have hparse : parseSteps ["--trace", "f", "--until", "f", "--run", "9"]
      = .ok (some [.traceSymbol "f", .runUntil "f", .freeRun 9]) := by decide +kernel
  obtain rfl := Option.some.inj (Except.ok.inj (hparse.symm.trans hsteps))
  intro step hstep symbol hsymbol
  have hf : symbol = "f" := by
    simp only [List.mem_cons, List.not_mem_nil, or_false] at hstep
    rcases hstep with rfl | rfl | rfl
    · exact (Option.some.inj hsymbol).symm
    · exact (Option.some.inj hsymbol).symm
    · cases hsymbol
  rw [hf]
  exact Or.inl (by decide)

end Avrsim.Tool
