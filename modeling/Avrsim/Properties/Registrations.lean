import Avrsim.Properties.Interchange
import Avrsim.Properties.PinLogs
import Avrsim.Properties.StackMarks

/-!
# What is registered

Pins are watched, functions traced and ranges of the stack watched for as long as a machine lives.
What is registered on it is what the registrations make of it, whatever else is done.

* `Mcu.shape` — what is registered on a machine
* `shape_session` — a session leaves what its registrations make of it
* `mem_of_extents` and `mem_of_ranges` — nothing is registered by itself
-/

namespace Avrsim

variable {ι : Type}

/-! ## Shapes -/

/-- What is registered on a machine: the wired and the watched pins, the extents and the ranges. -/
structure Shape where
  hooks : List PinHook
  watched : PinKey → Bool
  extents : String → Option (UInt32 × UInt32)
  ranges : List (UInt16 × UInt16)

/-- The extent of an entry. -/
def Traced.extent (item : Traced) : UInt32 × UInt32 := (item.begin, item.end)

def Mcu.shape (m : Mcu ι) : Shape where
  hooks := m.hooks
  watched := fun pin => m.pins.contains pin
  extents := fun symbol => m.traced[symbol]?.map Traced.extent
  ranges := m.stackWatches.map StackWatch.range

/-- The commands that register something, unless it is registered already. -/
def Command.registers : Command → Bool
  | .op (.trace _) | .op (.watchStack _ _) | .watch _ _ => true
  | _ => false

namespace Shape

variable (prog : Program) (shape : Shape)

def trace (symbol : String) : Shape :=
  { shape with
    extents := fun symbol' =>
      if symbol = symbol' then
        some ((shape.extents symbol').getD (Traced.new prog symbol' 0).extent)
      else shape.extents symbol' }

def watchStack (low high : UInt16) : Shape :=
  if shape.ranges.contains (low, high) then shape
  else { shape with ranges := shape.ranges ++ [(low, high)] }

def watch (port : Char) (bit : UInt8) : Shape :=
  if shape.watched (port, bit) then shape
  else
    { shape with
      hooks := shape.hooks ++ [⟨(port, bit), (port, bit)⟩]
      watched := fun pin => (port, bit) == pin || shape.watched pin }

/-- What a command registers. -/
def register : Command → Shape
  | .op (.trace symbol) => shape.trace prog symbol
  | .op (.watchStack low high) => shape.watchStack low high
  | .watch port bit => shape.watch port bit
  | _ => shape

end Shape

theorem register_of_not_registers (prog : Program) (shape : Shape) {cmd : Command}
    (h : cmd.registers = false) : shape.register prog cmd = shape := by
  cases cmd with
  | op operation => cases operation <;> first | rfl | cases h
  | watch port bit => cases h
  | drive port bit level => rfl

/-! ## Recording registers nothing -/

theorem shape_absorb (m : Mcu ι) (r : Core ι × List Notice) : (m.absorb r).shape = m.shape := by
  have hwatched : (fun pin => (m.absorb r).pins.contains pin) = fun pin => m.pins.contains pin :=
    funext fun pin => contains_foldl_onPinChanged m.hooks pin r.2 m.pins
  exact congrArg (fun watched => { m.shape with watched := watched }) hwatched

theorem shape_tick (sim : Simavr ι) (m : Mcu ι) : (m.tick sim).shape = m.shape := by
  rw [← shape_absorb m (sim.avrRun m.avr)]
  unfold Mcu.tick
  generalize m.absorb (sim.avrRun m.avr) = m'
  have hextents : (fun symbol : String => m'.sampleStack.sampleTraces.traced[symbol]?.map
      Traced.extent) = fun symbol => m'.traced[symbol]?.map Traced.extent := by
    funext symbol
    unfold Mcu.sampleTraces
    rw [Std.TreeMap.getElem?_map, Option.map_map]
    rfl
  have hranges : m'.sampleStack.sampleTraces.stackWatches.map StackWatch.range
      = m'.stackWatches.map StackWatch.range :=
    map_range_map (fun w => StackWatch.range_sample _ w) m'.stackWatches
  unfold Mcu.shape
  rw [hextents, hranges]
  rfl

theorem shape_runLoop (sim : Simavr ι) (l : StepLoop ι) (m : Mcu ι) :
    (m.runLoop sim l).shape = m.shape :=
  Infra.Loop.stepWhile_induction (P := fun m' : Mcu ι => m'.shape = m.shape)
    (fun m' h => (shape_tick sim m').trans h) l.cap _ rfl

theorem shape_reset (sim : Simavr ι) (m : Mcu ι) : (m.reset sim).shape = m.shape := by
  have hwatched :
      (fun pin => (m.reset sim).pins.contains pin) = fun pin => m.pins.contains pin := by
    funext pin
    have hcontains := congrArg (fun shape : Shape => shape.watched pin)
      (shape_absorb m (sim.avrReset m.avr))
    show ((m.absorb (sim.avrReset m.avr)).pins.map fun _ log => log.clear).contains pin = _
    rw [Std.TreeMap.contains_map]
    exact hcontains
  exact congrArg (fun watched => { m.shape with watched := watched }) hwatched

/-! ## Registering -/

theorem shape_trace (m : Mcu ι) (symbol : String) :
    (m.trace symbol).shape = m.shape.trace m.prog symbol := by
  have hframe : (m.trace symbol).hooks = m.hooks ∧ (m.trace symbol).pins = m.pins
      ∧ (m.trace symbol).stackWatches = m.stackWatches := by
    unfold Mcu.trace
    split <;> exact ⟨rfl, rfl, rfl⟩
  have hextents : ∀ symbol' : String, (m.trace symbol).traced[symbol']?.map Traced.extent
      = (m.shape.trace m.prog symbol).extents symbol' := by
    intro symbol'
    rw [traced_trace]
    show _ = if symbol = symbol' then
      some ((m.traced[symbol']?.map Traced.extent).getD (Traced.new m.prog symbol' 0).extent)
      else m.traced[symbol']?.map Traced.extent
    split
    · next heq =>
      subst heq
      cases m.traced[symbol]? <;> rfl
    · rfl
  unfold Mcu.shape
  rw [hframe.1, hframe.2.1, hframe.2.2, funext hextents]
  rfl

theorem shape_watchStack (m : Mcu ι) (low high : UInt16) :
    (m.watchStack low high).shape = m.shape.watchStack low high := by
  have hframe : (m.watchStack low high).hooks = m.hooks ∧ (m.watchStack low high).pins = m.pins
      ∧ (m.watchStack low high).traced = m.traced := by
    unfold Mcu.watchStack
    split <;> exact ⟨rfl, rfl, rfl⟩
  have hranges : (m.watchStack low high).stackWatches.map StackWatch.range
      = (m.shape.watchStack low high).ranges := by
    rw [ranges_watchStack]
    unfold Shape.watchStack
    rw [apply_ite Shape.ranges]
    simp only [List.contains_iff_mem]
    rfl
  unfold Mcu.shape
  rw [hframe.1, hframe.2.1, hframe.2.2, hranges]
  show _ = m.shape.watchStack low high
  unfold Shape.watchStack
  split <;> rfl

theorem shape_watch {sim : Simavr ι} {m m' : Mcu ι} {port : Char} {bit : UInt8}
    (h : m.watch sim port bit = .ok m') : m'.shape = m.shape.watch port bit := by
  have hwatched : m.shape.watched (port, bit) = m.pins.contains (port, bit) := rfl
  unfold Mcu.watch at h
  unfold Shape.watch
  rw [hwatched]
  split at h
  · next hpin =>
    cases h
    rw [if_pos hpin]
  · next hpin =>
    rw [if_neg hpin]
    split at h
    · cases h
      unfold Mcu.shape
      simp only [Std.TreeMap.contains_insert]
      congr 1
      funext pin
      congr 1
      rw [Bool.eq_iff_iff, beq_iff_eq, beq_iff_eq, Std.LawfulEqCmp.compare_eq_iff_eq]
    · cases h

/-- What a command leaves registered. -/
theorem shape_command {sim : Simavr ι} {m m' : Mcu ι} {cmd : Command}
    (h : cmd.exec sim m = .ok m') : m'.shape = m.shape.register m.prog cmd := by
  cases cmd with
  | op operation =>
    cases h
    cases hl : m.prog.stepLoop m.avr operation with
    | some l =>
      rw [exec_snd_of_stepLoop sim hl, shape_runLoop]
      cases operation <;> first | rfl | cases hl
    | none =>
      cases hs : operation.steps with
      | true =>
        rw [exec_of_stepLoop_none sim hs hl]
        cases operation <;> first | rfl | cases hs
      | false =>
        cases operation with
        | trace symbol => exact shape_trace m symbol
        | watchStack low high => exact shape_watchStack m low high
        | reset => exact shape_reset sim m
        | clearTrace symbol =>
          have hextents : ∀ symbol' : String,
              (m.clearTrace symbol).traced[symbol']?.map Traced.extent
                = m.traced[symbol']?.map Traced.extent := fun symbol' => by
            rw [traced_clearTrace]
            split
            · rw [Option.map_map]
              rfl
            · rfl
          exact congrArg (fun extents => { m.shape with extents := extents }) (funext hextents)
        | clearStack low high =>
          have hranges : (m.clearStack low high).stackWatches.map StackWatch.range
              = m.stackWatches.map StackWatch.range := by
            refine map_range_map (fun w => ?_) m.stackWatches
            split <;> rfl
          exact congrArg (fun ranges => { m.shape with ranges := ranges }) hranges
        | call symbol cycleBudget => cases hs
        | run cycles => cases hs
        | runUntil symbol cycleBudget => cases hs
        | _ => rfl
  | watch port bit => exact shape_watch h
  | drive port bit level =>
    cases h
    show (m.drive sim port bit level).shape = m.shape
    unfold Mcu.drive
    split
    · exact shape_absorb m _
    · rfl

/-- **A session leaves what its registrations make of what was registered before.** -/
theorem shape_session {sim : Simavr ι} {cmds : List Command} {m m' : Mcu ι}
    (h : session sim m cmds = .ok m') :
    m'.shape = cmds.foldl (Shape.register m.prog) m.shape := by
  induction cmds generalizing m with
  | nil =>
    cases session_nil.mp h
    rfl
  | cons cmd cmds ih =>
    obtain ⟨m₁, hcmd, hrest⟩ := session_cons.mp h
    rw [List.foldl_cons, ← shape_command hcmd, ← Command.exec_prog hcmd]
    exact ih hrest

/-- An extent that is registered was there before, or its symbol has been traced. -/
theorem mem_of_extents (prog : Program) (symbol : String) {cmds : List Command} {shape : Shape}
    (h : ((cmds.foldl (Shape.register prog) shape).extents symbol).isSome = true) :
    (shape.extents symbol).isSome = true ∨ .op (.trace symbol) ∈ cmds := by
  induction cmds generalizing shape with
  | nil => exact Or.inl h
  | cons cmd cmds ih =>
    rcases ih h with hthere | hmem
    · by_cases hcmd : cmd = .op (.trace symbol)
      · exact Or.inr (hcmd ▸ List.mem_cons_self)
      · left
        have hsame : (shape.register prog cmd).extents symbol = shape.extents symbol := by
          cases cmd with
          | op operation =>
            cases operation with
            | trace symbol' =>
              have hne : symbol' ≠ symbol := fun heq => hcmd (by rw [heq])
              exact if_neg hne
            | watchStack low high =>
              show (shape.watchStack low high).extents symbol = _
              unfold Shape.watchStack
              split <;> rfl
            | _ => rfl
          | watch port bit =>
            show (shape.watch port bit).extents symbol = _
            unfold Shape.watch
            split <;> rfl
          | drive port bit level => rfl
        rw [← hsame]
        exact hthere
    · exact Or.inr (List.mem_cons_of_mem cmd hmem)

/-- A range that is registered was there before, or has been watched. -/
theorem mem_of_ranges (prog : Program) {low high : UInt16} {cmds : List Command} {shape : Shape}
    (h : (low, high) ∈ (cmds.foldl (Shape.register prog) shape).ranges) :
    (low, high) ∈ shape.ranges ∨ .op (.watchStack low high) ∈ cmds := by
  induction cmds generalizing shape with
  | nil => exact Or.inl h
  | cons cmd cmds ih =>
    rcases ih h with hthere | hmem
    · by_cases hcmd : cmd = .op (.watchStack low high)
      · exact Or.inr (hcmd ▸ List.mem_cons_self)
      · left
        cases cmd with
        | op operation =>
          cases operation with
          | watchStack low' high' =>
            have hthere : (low, high) ∈ (shape.watchStack low' high').ranges := hthere
            unfold Shape.watchStack at hthere
            split at hthere
            · exact hthere
            · rcases List.mem_append.mp hthere with hthere | hnew
              · exact hthere
              · obtain ⟨rfl, rfl⟩ : low = low' ∧ high = high' := by simpa using hnew
                exact absurd rfl hcmd
          | _ => exact hthere
        | watch port bit =>
          have hthere : (low, high) ∈ (shape.watch port bit).ranges := hthere
          unfold Shape.watch at hthere
          split at hthere <;> exact hthere
        | drive port bit level => exact hthere
    · exact Or.inr (List.mem_cons_of_mem cmd hmem)

end Avrsim
