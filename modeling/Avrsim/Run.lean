import Avrsim.Mcu

/-!
# Runs

A run is a list of operations on one machine. `exec` does one of them and `runOps` a whole
list; `Outcome` is what an operation returned.

`watch` and `drive` are no operations: the first can end the process, the second raises an
interrupt line, and neither touches a trace, a stack watch or the watermark. `Command` adds
them, and `session` does a list of commands until one fails.
-/

namespace Avrsim

/-- The operations of a run. `clearTrace` and `clearStack` act on a log handed out earlier. -/
inductive Op where
  | call (symbol : String) (cycleBudget : UInt64)
  | run (cycles : UInt64)
  | runUntil (symbol : String) (cycleBudget : UInt64)
  | reset
  | trace (symbol : String)
  | clearTrace (symbol : String)
  | watchStack (low high : UInt16)
  | clearStack (low high : UInt16)
  | resetStackWatermark
  | setReg (index value : UInt8)
  | setRegPair (low : UInt8) (value : UInt16)
  | setData (addr : UInt16) (value : UInt8)
  | setSreg (value : UInt8)
deriving DecidableEq, Repr

/-- What an operation returns to its caller, log references apart. -/
inductive Outcome where
  | nothing
  | call (result : Call)
  | cycles (n : UInt64)
deriving DecidableEq, Repr

variable {ι : Type}

/-- Do one operation. -/
def exec (sim : Simavr ι) (m : Mcu ι) : Op → Outcome × Mcu ι
  | .call symbol cycleBudget =>
    let (result, m) := m.call sim symbol cycleBudget
    (.call result, m)
  | .run cycles =>
    let (n, m) := m.run sim cycles
    (.cycles n, m)
  | .runUntil symbol cycleBudget =>
    let (result, m) := m.runUntil sim symbol cycleBudget
    (.call result, m)
  | .reset => (.nothing, m.reset sim)
  | .trace symbol => (.nothing, m.trace symbol)
  | .clearTrace symbol => (.nothing, m.clearTrace symbol)
  | .watchStack low high => (.nothing, m.watchStack low high)
  | .clearStack low high => (.nothing, m.clearStack low high)
  | .resetStackWatermark => (.nothing, m.resetStackWatermark)
  | .setReg index value => (.nothing, m.setReg index value)
  | .setRegPair low value => (.nothing, m.setRegPair low value)
  | .setData addr value => (.nothing, m.setData addr value)
  | .setSreg value => (.nothing, m.setSreg value)

/-- Do a list of operations, in order. -/
def runOps (sim : Simavr ι) (m : Mcu ι) (ops : List Op) : Mcu ι :=
  ops.foldl (fun m op => (exec sim m op).2) m

/-- Everything a test does to a machine. -/
inductive Command where
  | op (op : Op)
  | watch (port : Char) (bit : UInt8)
  | drive (port : Char) (bit : UInt8) (level : Bool)
deriving DecidableEq, Repr

/-- Do one command. -/
def Command.exec (sim : Simavr ι) (m : Mcu ι) : Command → Except String (Mcu ι)
  | .op operation => .ok (Avrsim.exec sim m operation).2
  | .watch port bit => m.watch sim port bit
  | .drive port bit level => .ok (m.drive sim port bit level)

/-- Do a list of commands, in order. -/
def session (sim : Simavr ι) : Mcu ι → List Command → Except String (Mcu ι)
  | m, [] => .ok m
  | m, cmd :: cmds => do
    let m ← cmd.exec sim m
    session sim m cmds

@[simp] theorem runOps_nil (sim : Simavr ι) (m : Mcu ι) : runOps sim m [] = m := rfl

@[simp] theorem runOps_cons (sim : Simavr ι) (m : Mcu ι) (op : Op) (ops : List Op) :
    runOps sim m (op :: ops) = runOps sim (exec sim m op).2 ops := rfl

theorem runOps_append (sim : Simavr ι) (m : Mcu ι) (ops ops' : List Op) :
    runOps sim m (ops ++ ops') = runOps sim (runOps sim m ops) ops' :=
  List.foldl_append

theorem session_nil {sim : Simavr ι} {m m' : Mcu ι} :
    session sim m [] = .ok m' ↔ m = m' :=
  Except.ok.injEq m m' ▸ Iff.rfl

/-- What went well went well in both parts. -/
theorem bind_eq_ok {α β : Type} {x : Except String α} {f : α → Except String β} {b : β} :
    x >>= f = .ok b ↔ ∃ a, x = .ok a ∧ f a = .ok b := by
  cases x with
  | error message => simp [bind, Except.bind]
  | ok a => simp [bind, Except.bind]

theorem session_cons {sim : Simavr ι} {m m' : Mcu ι} {cmd : Command} {cmds : List Command} :
    session sim m (cmd :: cmds) = .ok m'
      ↔ ∃ m₁, cmd.exec sim m = .ok m₁ ∧ session sim m₁ cmds = .ok m' := bind_eq_ok

end Avrsim
