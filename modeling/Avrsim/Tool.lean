import Avrsim.Infra.Strtoul
import Avrsim.Loader

/-!
# The tool

`run` of `utils.cpp`: the command line is read into steps, every symbol is checked, the steps are
executed in order on one machine, and what was watched is reported at the end.

What is printed is kept as data, one `Line` for each kind of line, so that nothing here depends on
how a number is formatted. `fail` ends the process, and is an error here.

A `Char` stands for one byte of an argument, so that a `String` is what the source's `std::string`
is, and a port is a single byte.
-/

namespace Avrsim.Tool

/-! ## Steps -/

/-- One pin to hold at a level. -/
structure Drive where
  port : Char
  bit : UInt8
  level : Bool
deriving DecidableEq, Repr

/-- One call to make: a symbol, and what to put in the argument registers. -/
structure Invocation where
  symbol : String
  wordArgument : UInt16
  byteArgument : UInt8
deriving DecidableEq, Repr

/-- A range of data-space addresses, and the byte a painted one was filled with. -/
structure Region where
  low : UInt16
  high : UInt16
  value : UInt8
deriving DecidableEq, Repr

/-- One thing to do: a `Kind`, with those fields of the source's `Step` that the kind uses. -/
inductive Step where
  | callSymbol (call : Invocation)
  | drivePin (drive : Drive)
  | freeRun (cycles : UInt64)
  | watchPin (drive : Drive)
  | traceSymbol (symbol : String)
  | runUntil (symbol : String)
  | watchStack (region : Region)
  | paintRegion (region : Region)
deriving DecidableEq, Repr

/-- The fewest arguments that can name an image and one step to run on it. -/
def minimumArguments : Nat := 3

/-- Argument holding the image path. -/
def imageArgument : Nat := 1

/-- Argument holding the first step. -/
def firstStepArgument : Nat := 2

/-- r25:r24. -/
def wordArgumentRegister : UInt8 := 24

/-- r22. -/
def byteArgumentRegister : UInt8 := 22

/-- r24, where a subroutine leaves its result. -/
def resultRegister : UInt8 := 24

/-- Exit code when the command line is wrong, or a symbol is missing. -/
def usageError : Nat := 2

/-- Exit code when a subroutine did not return. -/
def noReturn : Nat := 1

/-- Top of SRAM on an ATmega328P. -/
def ramEnd : UInt16 := 0x08FF

/-- How many gaps to print before summarising the rest. -/
def maxGapsShown : Nat := 8

/-- The clock of a machine made without one. -/
def defaultClockHz : UInt32 := 16000000

/-- The budget of a `call` or `runUntil` made without one. -/
def defaultBudget : UInt64 := 100000

/-! ## Reading the command line -/

def numberOf (text : List Char) : UInt64 := (Infra.Strtoul.strtoul 0 text).toWord

/-- A text cut at the first `c`: what is before it, and what is after it when it is there. -/
def cut (c : Char) (text : List Char) : List Char × Option (List Char) :=
  (text.takeWhile fun ch => ch != c, (text.dropWhile fun ch => ch != c).tail?)

def parseRegion (spec : String) : Except String Region :=
  match cut ':' spec.toList with
  | (_, none) => .error "expected <low>:<high>"
  | (low, some rest) =>
    let (high, value) := cut '=' rest
    let region : Region :=
      { low := (numberOf low).toUInt16
        high := (numberOf high).toUInt16
        value := (value.map fun text => (numberOf text).toUInt8).getD 0 }
    if region.high < region.low then .error "the range runs backwards" else .ok region

def parseDrive (spec : String) : Drive :=
  match spec.toList with
  | [] => ⟨'B', 0, false⟩
  | port :: rest =>
    -- with an equals sign for a port the length of the digits wraps round to all of them
    if port = '=' then ⟨port, (numberOf rest).toUInt8, numberOf rest != 0⟩
    else
      let (digits, level) := cut '=' rest
      ⟨port, (numberOf digits).toUInt8, level.any fun text => numberOf text != 0⟩

def parse (spec : String) : Invocation :=
  match cut ':' spec.toList with
  | (_, none) => ⟨spec, 0, 0⟩
  | (symbol, some arguments) =>
    match cut ':' arguments with
    | (first, none) => ⟨String.ofList symbol, (numberOf first).toUInt16, 0⟩
    | (first, some second) =>
      ⟨String.ofList symbol, (numberOf first).toUInt16, (numberOf second).toUInt8⟩

/-- The step an option makes of its operand, for the words that are options. -/
def withOperand : String → Option (String → Except String Step)
  | "--drive" => some fun operand => .ok (.drivePin (parseDrive operand))
  | "--watch" => some fun operand => .ok (.watchPin (parseDrive operand))
  | "--run" => some fun operand => .ok (.freeRun (numberOf operand.toList))
  | "--trace" => some fun operand => .ok (.traceSymbol operand)
  | "--until" => some fun operand => .ok (.runUntil operand)
  | "--stack" => some fun operand => (parseRegion operand).map .watchStack
  | "--paint" => some fun operand => (parseRegion operand).map .paintRegion
  | _ => none

/-- The steps of the arguments, or `none` when an option lacks its operand. -/
def parseSteps : List String → Except String (Option (List Step))
  | [] => .ok (some [])
  | argument :: rest =>
    match withOperand argument, rest with
    | some _, [] => .ok none
    | some make, operand :: rest => do
      let step ← make operand
      let steps ← parseSteps rest
      return steps.map (step :: ·)
    | none, rest => do
      let steps ← parseSteps rest
      return steps.map (Step.callSymbol (parse argument) :: ·)

/-! ## What is printed -/

inductive Line where
  | usage
  | undefined (image symbol : String)
  | holding (drive : Drive)
  | watching (port : Char) (bit : UInt8)
  | tracing (symbol : String)
  | watchingStack (low high : UInt16)
  | painted (region : Region)
  | reached (symbol : String) (cycles : UInt64)
  | neverReached (symbol : String) (budget : UInt64)
  | ran (cycles : UInt64)
  | called (call : Invocation)
  | didNotReturn (budget : UInt64)
  /-- Cycles, the time they take at this clock, and the result register. -/
  | cost (cycles : UInt64) (clockHz : UInt32) (result : UInt8)
  | pinLog (port : Char) (bit : UInt8) (transitions : Nat)
  | traceLog (symbol : String) (visits : Nat)
  | neverEntered
  | visitCosts (shortest longest total : UInt64)
  | gap (first second : Nat) (cycles : UInt64)
  | moreGaps (count : Nat)
  | stack (low high : UInt16) (reached : Option (UInt16 × UInt16))
  | paint (region : Region) (untouched : UInt16) (size : UInt32)
  | nothingSurvives
  | deepest (sp : UInt16) (belowRamEnd : UInt32)
deriving DecidableEq, Repr

variable {ι : Type}

/-! ## Executing the steps -/

/-- The loop of a paint step, from `addr` with `left` addresses to go. -/
def paintFrom (value : UInt8) : Nat → UInt32 → Mcu ι → Mcu ι
  | 0, _, m => m
  | left + 1, addr, m => paintFrom value left (addr + 1) (m.setData addr.toUInt16 value)

/-- Fill a range with a byte. -/
def paint (region : Region) (m : Mcu ι) : Mcu ι :=
  paintFrom region.value (region.high.toNat + 1 - region.low.toNat) region.low.toUInt32 m

/-- What `run` keeps while it executes the steps. A reference to a log is the key it is under. -/
structure Session (ι : Type) where
  mcu : Mcu ι
  status : Nat
  watched : List PinKey
  traced : List String
  stackRanges : List (UInt16 × UInt16)
  painted : List Region
  output : List Line

namespace Session

def start (mcu : Mcu ι) : Session ι := ⟨mcu, 0, [], [], [], [], []⟩

def print (lines : List Line) (s : Session ι) : Session ι := { s with output := s.output ++ lines }

/-- Execute one step. -/
def execute (sim : Simavr ι) (s : Session ι) : Step → Except String (Session ι)
  | .drivePin drive =>
    let mcu := s.mcu.drive sim drive.port drive.bit drive.level
    let (_, mcu) := mcu.run sim 4
    .ok ({ s with mcu := mcu }.print [.holding drive])
  | .watchPin drive => do
    let mcu ← s.mcu.watch sim drive.port drive.bit
    return { s with mcu := mcu, watched := s.watched ++ [(drive.port, drive.bit)] }.print
      [.watching drive.port drive.bit]
  | .traceSymbol symbol =>
    .ok ({ s with mcu := s.mcu.trace symbol, traced := s.traced ++ [symbol] }.print
      [.tracing symbol])
  | .watchStack region =>
    .ok ({ s with
      mcu := s.mcu.watchStack region.low region.high
      stackRanges := s.stackRanges ++ [(region.low, region.high)] }.print
      [.watchingStack region.low region.high])
  | .paintRegion region =>
    .ok ({ s with mcu := paint region s.mcu, painted := s.painted ++ [region] }.print
      [.painted region])
  | .runUntil symbol =>
    let (reached, mcu) := s.mcu.runUntil sim symbol defaultBudget
    let s := { s with mcu := mcu }
    if reached.returned then .ok (s.print [.reached symbol reached.cycles])
    else .ok ({ s with status := noReturn }.print [.neverReached symbol defaultBudget])
  | .freeRun cycles =>
    let (ran, mcu) := s.mcu.run sim cycles
    .ok ({ s with mcu := mcu }.print [.ran ran])
  | .callSymbol call =>
    let mcu := s.mcu.setRegPair wordArgumentRegister call.wordArgument
    let mcu := mcu.setReg byteArgumentRegister call.byteArgument
    let (result, mcu) := mcu.call sim call.symbol defaultBudget
    let s := { s with mcu := mcu }.print [.called call]
    if !result.returned then .ok ({ s with status := noReturn }.print [.didNotReturn defaultBudget])
    else .ok (s.print [.cost result.cycles mcu.clockHz (mcu.reg resultRegister)])

/-- Execute the steps, in order. -/
def executeAll (sim : Simavr ι) : Session ι → List Step → Except String (Session ι)
  | s, [] => .ok s
  | s, step :: steps => do
    let s ← s.execute sim step
    executeAll sim s steps

end Session

/-! ## The report -/

/-- The first gaps of a log of `count` entries, and how many more there are. -/
def gapLines (count : Nat) (gap : Nat → Nat → UInt64) : List Line :=
  let shown := maxGapsShown + 1
  (List.range' 1 (min (count - 1) maxGapsShown)).map
      (fun step => .gap (step - 1) step (gap (step - 1) step))
    ++ if shown < count then [.moreGaps (count - shown)] else []

def pinLines (m : Mcu ι) (pin : PinKey) : List Line :=
  let log := m.pins[pin]?.getD PinLog.new
  .pinLog pin.1 pin.2 log.count :: gapLines log.count fun first second => log.gap first second

def traceLines (m : Mcu ι) (symbol : String) : List Line :=
  let log := (m.traced[symbol]?.map Traced.log).getD Trace.new
  if 0 = log.count then [.traceLog symbol log.count, .neverEntered]
  else
    .traceLog symbol log.count :: .visitCosts log.shortest log.longest log.totalCycles
      :: gapLines log.count fun first second => log.gap first second

def stackLines (m : Mcu ι) (range : UInt16 × UInt16) : List Line :=
  let watch := (m.stackWatches.find? fun w => w.range == range).getD
    (StackWatch.new range.1 range.2)
  [.stack watch.low watch.high
    (if !watch.entered then none else some (watch.lowest, watch.deepestBytes))]

def paintLines (m : Mcu ι) (region : Region) : List Line :=
  let untouched := m.untouchedBytes region.low region.high region.value
  let size := region.high.toUInt32 - region.low.toUInt32 + 1
  .paint region untouched size :: if 0 = untouched then [.nothingSurvives] else []

def deepestLines (m : Mcu ι) : List Line :=
  if noStackMark ≠ m.lowestStackPtr then
    [.deepest m.lowestStackPtr (ramEnd.toUInt32 - m.lowestStackPtr.toUInt32)]
  else []

def Session.report (s : Session ι) : List Line :=
  s.watched.flatMap (pinLines s.mcu) ++ s.traced.flatMap (traceLines s.mcu)
    ++ s.stackRanges.flatMap (stackLines s.mcu) ++ s.painted.flatMap (paintLines s.mcu)
    ++ deepestLines s.mcu

/-! ## The tool itself -/

/-- What `run` leaves: the exit code, what was printed, and the machine if one was made. -/
structure Result (ι : Type) where
  code : Nat
  output : List Line
  mcu : Option (Mcu ι)

/-- The command line is wrong. -/
def usage : Result ι := ⟨usageError, [.usage], none⟩

/-- The symbol that is checked before anything runs. -/
def Step.symbol? : Step → Option String
  | .callSymbol call => some call.symbol
  | .traceSymbol symbol => some symbol
  | .runUntil symbol => some symbol
  | _ => none

/-- The first of the symbols that the image does not define. -/
def firstUndefined (m : Mcu ι) (steps : List Step) : Option String :=
  (steps.filterMap Step.symbol?).find? fun symbol => !m.has symbol

/-- Run every step the command line gives, on one machine. -/
def run (sim : Simavr ι) (files : Files) (argv : List String) : Except String (Result ι) :=
  if minimumArguments > argv.length then .ok usage
  else do
    let elf := argv.getD imageArgument ""
    match ← parseSteps (argv.drop firstStepArgument) with
    | none => return usage
    | some steps =>
      if steps.isEmpty then return usage
      let mcu ← Mcu.load sim files elf defaultClockHz
      match firstUndefined mcu steps with
      | some symbol => return ⟨usageError, [.undefined elf symbol], some mcu⟩
      | none =>
        let s ← (Session.start mcu).executeAll sim steps
        return ⟨s.status, s.output ++ s.report, some s.mcu⟩

end Avrsim.Tool
