import Avrsim.Properties.Interchange
import Avrsim.Properties.Paint

/-!
# Exit codes

The tool either does nothing to the machine and ends with 2, or does every step of the command line
once, in order, and ends with 1 if one of them reported that it did not return. What the steps do
is one session of the commands they stand for.

* `Step.commands` — a step as commands on the machine
* `executeAll_spec` — the loop that executes the steps
* `Refused` — what the tool does not begin with
* `run_exit` — the exit code, and what has been executed
-/

namespace Avrsim.Tool

variable {ι : Type}

/-! ## Steps as commands -/

/-- What a step does to the machine. -/
def Step.commands : Step → List Command
  | .callSymbol call =>
    [.op (.setRegPair wordArgumentRegister call.wordArgument),
      .op (.setReg byteArgumentRegister call.byteArgument),
      .op (.call call.symbol defaultBudget)]
  | .drivePin drive => [.drive drive.port drive.bit drive.level, .op (.run 4)]
  | .freeRun cycles => [.op (.run cycles)]
  | .watchPin drive => [.watch drive.port drive.bit]
  | .traceSymbol symbol => [.op (.trace symbol)]
  | .runUntil symbol => [.op (.runUntil symbol defaultBudget)]
  | .watchStack region => [.op (.watchStack region.low region.high)]
  | .paintRegion region =>
    (addresses region.low region.high).map fun addr =>
      .op (.setData (UInt16.ofNat addr) region.value)

/-- A command reported that it did not return, or was not reached. -/
def failed : Except String (Outcome × Records ι) → Bool
  | .ok (.call result, _) => !result.returned
  | _ => false

/-- Whether one of some commands reported so. -/
def anyFailed (sim : Simavr ι) (m : Mcu ι) (cmds : List Command) : Bool :=
  (transcript sim m cmds).any failed

theorem session_append {sim : Simavr ι} {cmds' : List Command} {m' m'' : Mcu ι}
    (h' : session sim m' cmds' = .ok m'') : ∀ {cmds : List Command} {m : Mcu ι},
      session sim m cmds = .ok m' → session sim m (cmds ++ cmds') = .ok m''
  | [], m, h => by
    rw [session_nil] at h
    subst h
    exact h'
  | cmd :: cmds, m, h => by
    obtain ⟨m₁, hcmd, hrest⟩ := session_cons.mp h
    exact session_cons.mpr ⟨m₁, hcmd, session_append h' hrest⟩

theorem anyFailed_append {sim : Simavr ι} {cmds' : List Command} {m' : Mcu ι} :
    ∀ {cmds : List Command} {m : Mcu ι}, session sim m cmds = .ok m' →
      anyFailed sim m (cmds ++ cmds') = (anyFailed sim m cmds || anyFailed sim m' cmds')
  | [], m, h => by
    rw [session_nil] at h
    subst h
    rfl
  | cmd :: cmds, m, h => by
    obtain ⟨m₁, hcmd, hrest⟩ := session_cons.mp h
    have ih : anyFailed sim m₁ (cmds ++ cmds') = _ := anyFailed_append hrest
    unfold anyFailed at ih ⊢
    rw [List.cons_append, transcript, transcript, hcmd]
    simp only [List.any_cons, ih, Bool.or_assoc]

/-! ## One step -/

theorem session_paintFrom (sim : Simavr ι) (value : UInt8) : ∀ (left : Nat) (addr : UInt32)
    (m : Mcu ι), addr.toNat + left < 2 ^ 32 →
      session sim m ((List.range' addr.toNat left).map fun addr =>
          .op (.setData (UInt16.ofNat addr) value))
        = .ok (paintFrom value left addr m)
  | 0, _, _, _ => rfl
  | left + 1, addr, m, h => by
    have hsucc : (addr + 1).toNat = addr.toNat + 1 := toNat_succ_of_lt (by omega)
    have ih := session_paintFrom sim value left (addr + 1) (m.setData addr.toUInt16 value)
      (by omega)
    rw [hsucc, toUInt16_eq_ofNat] at ih
    rw [List.range'_succ, List.map_cons, paintFrom, toUInt16_eq_ofNat]
    exact ih

theorem session_paint (sim : Simavr ι) (region : Region) (m : Mcu ι) :
    session sim m (Step.paintRegion region).commands = .ok (paint region m) := by
  have hlow := region.low.toNat_lt
  have hhigh := region.high.toNat_lt
  have hstart : region.low.toUInt32.toNat = region.low.toNat := by simp
  have hloop := session_paintFrom sim region.value (region.high.toNat + 1 - region.low.toNat)
    region.low.toUInt32 m (by omega)
  rw [hstart] at hloop
  exact hloop

/-- Writing bytes reports nothing. -/
theorem anyFailed_setData (sim : Simavr ι) (value : UInt8) : ∀ (addrs : List Nat) (m : Mcu ι),
    anyFailed sim m (addrs.map fun addr => .op (.setData (UInt16.ofNat addr) value)) = false
  | [], _ => rfl
  | addr :: addrs, m => anyFailed_setData sim value addrs (m.setData (UInt16.ofNat addr) value)

theorem anyFailed_runUntil (sim : Simavr ι) (m : Mcu ι) (symbol : String) :
    anyFailed sim m (Step.runUntil symbol).commands
      = !(m.runUntil sim symbol defaultBudget).1.returned := Bool.or_false _

theorem anyFailed_callSymbol (sim : Simavr ι) (m : Mcu ι) (call : Invocation) :
    anyFailed sim m (Step.callSymbol call).commands
      = !(((m.setRegPair wordArgumentRegister call.wordArgument).setReg byteArgumentRegister
          call.byteArgument).call sim call.symbol defaultBudget).1.returned := Bool.or_false _

/-- A step does its commands, and is recorded as a failure if one of them reported one. -/
theorem execute_spec {sim : Simavr ι} {s s' : Session ι} {step : Step}
    (h : s.execute sim step = .ok s') :
    session sim s.mcu step.commands = .ok s'.mcu
      ∧ s'.status = if anyFailed sim s.mcu step.commands then noReturn else s.status := by
  cases step with
  | callSymbol call =>
    have hany := anyFailed_callSymbol sim s.mcu call
    simp only [Session.execute] at h
    split at h
    · next hreturned =>
      cases h
      rw [hany, if_pos hreturned]
      exact ⟨rfl, rfl⟩
    · next hreturned =>
      cases h
      rw [hany, if_neg (by simpa using hreturned)]
      exact ⟨rfl, rfl⟩
  | runUntil symbol =>
    have hany := anyFailed_runUntil sim s.mcu symbol
    simp only [Session.execute] at h
    split at h
    · next hreturned =>
      cases h
      rw [hany, if_neg (by simpa using hreturned)]
      exact ⟨rfl, rfl⟩
    · next hreturned =>
      cases h
      rw [hany, if_pos (by simpa using hreturned)]
      exact ⟨rfl, rfl⟩
  | watchPin drive =>
    obtain ⟨m, hwatch, h⟩ := bind_eq_ok.mp h
    cases h
    have hexec : Command.exec sim s.mcu (.watch drive.port drive.bit) = .ok m := hwatch
    refine ⟨session_cons.mpr ⟨m, hexec, rfl⟩, ?_⟩
    show s.status = if (transcript sim s.mcu [.watch drive.port drive.bit]).any failed then _ else _
    rw [transcript, hexec]
    rfl
  | paintRegion region =>
    cases h
    refine ⟨session_paint sim region s.mcu, ?_⟩
    show s.status = if anyFailed sim s.mcu ((addresses _ _).map _) then _ else _
    rw [anyFailed_setData]
    rfl
  | _ =>
    cases h
    exact ⟨rfl, rfl⟩

/-- **The steps are executed once each, in order**, whichever of them fail. -/
theorem executeAll_spec {sim : Simavr ι} : ∀ {steps : List Step} {s s' : Session ι},
    s.executeAll sim steps = .ok s' →
      session sim s.mcu (steps.flatMap Step.commands) = .ok s'.mcu
        ∧ s'.status = if anyFailed sim s.mcu (steps.flatMap Step.commands) then noReturn
            else s.status
  | [], s, s', h => by
    cases h
    exact ⟨rfl, rfl⟩
  | step :: steps, s, s', h => by
    obtain ⟨s₁, hstep, hrest⟩ := bind_eq_ok.mp h
    obtain ⟨hsession, hstatus⟩ := execute_spec hstep
    obtain ⟨hsession', hstatus'⟩ := executeAll_spec hrest
    rw [List.flatMap_cons, anyFailed_append hsession, hstatus', hstatus]
    refine ⟨session_append hsession' hsession, ?_⟩
    cases anyFailed sim s.mcu step.commands <;> simp

/-! ## The command line -/

/-- The last argument is an option, and stands where an option is expected. -/
def lacksOperand : List String → Bool
  | [] => false
  | argument :: rest =>
    match withOperand argument, rest with
    | some _, [] => true
    | some _, _ :: rest => lacksOperand rest
    | none, rest => lacksOperand rest

/-- There are steps unless an operand is missing, one at least if there are arguments. -/
theorem parseSteps_spec (arguments : List String) : ∀ {parsed : Option (List Step)},
    parseSteps arguments = .ok parsed →
      parsed.isNone = lacksOperand arguments
        ∧ ∀ steps, parsed = some steps → steps.isEmpty = arguments.isEmpty := by
  fun_induction parseSteps arguments with
  | case1 =>
    rintro _ ⟨⟩
    exact ⟨rfl, by simp⟩
  | case2 argument make hoption =>
    have hlacks : lacksOperand [argument] = true := by simp [lacksOperand, hoption]
    rintro _ ⟨⟩
    rw [hlacks]
    exact ⟨rfl, by simp⟩
  | case3 argument make operand rest hoption ih =>
    have hlacks : lacksOperand (argument :: operand :: rest) = lacksOperand rest := by
      simp [lacksOperand, hoption]
    intro parsed h
    obtain ⟨step, -, h⟩ := bind_eq_ok.mp h
    obtain ⟨steps, hrest, h⟩ := bind_eq_ok.mp h
    cases h
    rw [hlacks, Option.isNone_map]
    refine ⟨(ih hrest).1, fun steps' h' => ?_⟩
    obtain ⟨steps'', -, rfl⟩ := Option.map_eq_some_iff.mp h'
    rfl
  | case4 argument rest hoption ih =>
    have hlacks : lacksOperand (argument :: rest) = lacksOperand rest := by
      simp [lacksOperand, hoption]
    intro parsed h
    obtain ⟨steps, hrest, h⟩ := bind_eq_ok.mp h
    cases h
    rw [hlacks, Option.isNone_map]
    refine ⟨(ih hrest).1, fun steps' h' => ?_⟩
    obtain ⟨steps'', -, rfl⟩ := Option.map_eq_some_iff.mp h'
    rfl

section

variable (sim : Simavr ι) (files : Files) (argv : List String)

/-- The image of a command line, loaded. -/
def loaded : Except String (Mcu ι) :=
  Mcu.load sim files (argv.getD imageArgument "") defaultClockHz

/-- The steps of a command line. -/
def stepsOf : Except String (Option (List Step)) := parseSteps (argv.drop firstStepArgument)

/-- What the tool does not begin with. -/
inductive Refused : Prop where
  | arguments (h : argv.tail.length < 2)
  | operand (h : lacksOperand (argv.drop firstStepArgument) = true)
  | symbol {m : Mcu ι} {steps : List Step} {symbol : String} (hload : loaded sim files argv = .ok m)
    (hsteps : stepsOf argv = .ok (some steps)) (hmem : symbol ∈ steps.filterMap Step.symbol?)
    (hundefined : m.has symbol = false)

/-- No step has been executed: there is no machine, or it is as it was loaded. -/
def Untouched (r : Result ι) : Prop :=
  r.mcu = none ∨ ∃ m, loaded sim files argv = .ok m ∧ r.mcu = some m

/-- Every step has been executed, on the machine that was loaded, and the code tells a failure. -/
def Executed (r : Result ι) : Prop :=
  ∃ m steps m', loaded sim files argv = .ok m ∧ stepsOf argv = .ok (some steps)
    ∧ session sim m (steps.flatMap Step.commands) = .ok m' ∧ r.mcu = some m'
    ∧ r.code = if anyFailed sim m (steps.flatMap Step.commands) then 1 else 0

end

/-- The symbol check, and the steps after it. -/
theorem run_of_steps {sim : Simavr ι} {files : Files} {argv : List String} {r : Result ι}
    {steps : List Step} (hcount : ¬ minimumArguments > argv.length)
    (hsteps : stepsOf argv = .ok (some steps)) (h : run sim files argv = .ok r) :
    Refused sim files argv ∧ r.code = usageError ∧ Untouched sim files argv r
      ∨ ¬ Refused sim files argv ∧ Executed sim files argv r := by
  have hthree : ¬ argv.length < 3 := hcount
  obtain ⟨hlacks, hempty⟩ := parseSteps_spec _ hsteps
  -- there are arguments, so there are steps
  have hne : ¬ steps.isEmpty = true := by
    rw [hempty steps rfl, List.isEmpty_iff_length_eq_zero, List.length_drop]
    show ¬ argv.length - 2 = 0
    omega
  have hparse : parseSteps (argv.drop firstStepArgument) = .ok (some steps) := hsteps
  rw [run, if_neg hcount, hparse] at h
  obtain ⟨m, hload, h⟩ := bind_eq_ok.mp ((if_neg hne).symm.trans h)
  cases hfirst : firstUndefined m steps with
  | some symbol =>
    rw [hfirst] at h
    cases h
    have hmem := List.mem_of_find?_eq_some hfirst
    have hundefined := List.find?_some hfirst
    exact Or.inl ⟨.symbol hload hsteps hmem (by simpa using hundefined), rfl,
      Or.inr ⟨m, hload, rfl⟩⟩
  | none =>
    rw [hfirst] at h
    obtain ⟨s, hall, h⟩ := bind_eq_ok.mp h
    cases h
    refine Or.inr ⟨?_, ?_⟩
    · rintro (htail | hoperand | ⟨hload', hsteps', hmem, hundefined⟩)
      · rw [List.length_tail] at htail
        omega
      · rw [← hlacks] at hoperand
        cases hoperand
      · cases hload.symm.trans hload'
        cases hsteps.symm.trans hsteps'
        have hdefined := List.find?_eq_none.mp hfirst _ hmem
        rw [hundefined] at hdefined
        exact hdefined rfl
    · obtain ⟨hsession, hstatus⟩ := executeAll_spec hall
      exact ⟨m, steps, s.mcu, hload, hsteps, hsession, rfl, hstatus⟩

/-- The tool refuses the command line and does nothing, or executes it. -/
theorem run_cases {sim : Simavr ι} {files : Files} {argv : List String} {r : Result ι}
    (h : run sim files argv = .ok r) :
    Refused sim files argv ∧ r.code = usageError ∧ Untouched sim files argv r
      ∨ ¬ Refused sim files argv ∧ Executed sim files argv r := by
  by_cases hcount : minimumArguments > argv.length
  · rw [run, if_pos hcount] at h
    cases h
    have htail : argv.tail.length < 2 := by
      have hthree : argv.length < 3 := hcount
      rw [List.length_tail]
      omega
    exact Or.inl ⟨.arguments htail, rfl, Or.inl rfl⟩
  · have hbody := h
    rw [run, if_neg hcount] at hbody
    obtain ⟨parsed, hsteps, hbody⟩ := bind_eq_ok.mp hbody
    cases parsed with
    | none =>
      cases hbody
      exact Or.inl ⟨.operand (parseSteps_spec _ hsteps).1.symm, rfl, Or.inl rfl⟩
    | some steps => exact run_of_steps hcount hsteps h

/--
**The exit code is 2 exactly when the command line is refused, and then no step has been executed.**
Otherwise every step has been, once and in order, and the code is 1 if one of them reported that it
did not return, and 0 if none did.
-/
theorem run_exit {sim : Simavr ι} {files : Files} {argv : List String} {r : Result ι}
    (h : run sim files argv = .ok r) :
    (r.code = 2 ↔ Refused sim files argv)
      ∧ (Refused sim files argv → Untouched sim files argv r)
      ∧ (¬ Refused sim files argv → Executed sim files argv r) := by
  rcases run_cases h with ⟨hrefused, hcode, huntouched⟩ | ⟨hrefused, hexecuted⟩
  · exact ⟨iff_of_true hcode hrefused, fun _ => huntouched, fun hnot => absurd hrefused hnot⟩
  · have hcode : r.code ≠ 2 := by
      obtain ⟨m, steps, m', -, -, -, -, hcode⟩ := hexecuted
      rw [hcode]
      split <;> decide
    exact ⟨iff_of_false hcode hrefused, fun hyes => absurd hyes hrefused, fun _ => hexecuted⟩

/-- A program whose `main` crashes, and a subroutine that returns at once. -/
def crashFiles : Files where
  readMapFile := fun path => .error ("cannot read map file " ++ path)
  readIhexChunks := fun _ => []
  elfReadFirmware := fun _ => some (Isa.firmware [0xFFFF, 0x9508] [⟨"main", 0⟩, ⟨"f", 2⟩])

/-- The call of `f` is executed after that of `main` has failed, and the code tells the failure. -/
theorem run_exit_crash :
    ∃ r, run Isa.simavr crashFiles ["avrsim", "app.elf", "main", "f"] = .ok r ∧ r.code = 1
      ∧ Executed Isa.simavr crashFiles ["avrsim", "app.elf", "main", "f"] r := by
  have hcode : (run Isa.simavr crashFiles ["avrsim", "app.elf", "main", "f"]).toOption.map
      Result.code = some 1 := by decide +kernel
  cases hrun : run Isa.simavr crashFiles ["avrsim", "app.elf", "main", "f"] with
  | error message =>
    rw [hrun] at hcode
    cases hcode
  | ok r =>
    rw [hrun] at hcode
    have hone : r.code = 1 := Option.some.inj hcode
    obtain ⟨hrefused, -, hexecuted⟩ := run_exit hrun
    refine ⟨r, rfl, hone, hexecuted fun h => ?_⟩
    have htwo := hrefused.mpr h
    omega

end Avrsim.Tool
