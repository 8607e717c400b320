import Avrsim.Properties.Registrations
import Avrsim.Properties.Translation

/-!
# Starting over

`reset` puts back the core and forgets the pin logs. Traces, marks and the watermark survive it on
purpose, and a test that wants to start over clears them. Whether a traced function is occupied
cannot be cleared, so it has to be where the reset leaves control. A machine that starts over so is
as good as a new one with the same things registered.

* `Mcu.BlankAfter` — nothing has been recorded but what is still to be cleared
* `shiftedBy_of_blank` — two machines on which nothing has been recorded
* `starts_over` — no later session can tell the machine from a new one
-/

namespace Avrsim

variable {ι : Type}

/-! ## Nothing recorded -/

/-- A machine that has nothing recorded once some operations have cleared the rest. -/
structure Mcu.BlankAfter (ops : List Op) (m : Mcu ι) : Prop where
  pins : ∀ (pin : PinKey) (log : PinLog), m.pins[pin]? = some log → log = PinLog.new
  lowestStack : m.lowestStack = noStackMark ∨ .resetStackWatermark ∈ ops
  traced : ∀ (symbol : String) (item : Traced), m.traced[symbol]? = some item →
    item.inside = item.contains m.avr.pc ∧ (item.log = Trace.new ∨ .clearTrace symbol ∈ ops)
  stackWatches : ∀ w ∈ m.stackWatches,
    w = StackWatch.new w.low w.high ∨ .clearStack w.low w.high ∈ ops

/-- A machine that has nothing recorded. -/
abbrev Mcu.Blank (m : Mcu ι) : Prop := m.BlankAfter []

/-- The operations that clear one log, one watch or the watermark. -/
def Op.forgets : Op → Bool
  | .clearTrace _ | .clearStack _ _ | .resetStackWatermark => true
  | _ => false

/-- An operation that clears one thing leaves the others to those after it. -/
theorem Mcu.BlankAfter.exec {sim : Simavr ι} {m : Mcu ι} {op : Op} {ops : List Op}
    (h : m.BlankAfter (op :: ops)) (hop : op.forgets = true) :
    (Avrsim.exec sim m op).2.BlankAfter ops := by
  have hother : ∀ {op' : Op}, op' ≠ op → op' ∈ op :: ops → op' ∈ ops := List.mem_of_ne_of_mem
  cases op with
  | clearTrace symbol =>
    refine ⟨h.pins, h.lowestStack.imp_right (hother nofun), fun symbol' item hitem => ?_,
      fun w hw => (h.stackWatches w hw).imp_right (hother nofun)⟩
    have hitem : (m.clearTrace symbol).traced[symbol']? = some item := hitem
    rw [traced_clearTrace] at hitem
    split at hitem
    · obtain ⟨item', hitem', rfl⟩ := Option.map_eq_some_iff.mp hitem
      exact ⟨(h.traced symbol' item' hitem').1, Or.inl rfl⟩
    · next hne =>
      obtain ⟨hinside, hlog⟩ := h.traced symbol' item hitem
      exact ⟨hinside, hlog.imp_right (hother fun heq => hne (Op.clearTrace.inj heq).symm)⟩
  | clearStack low high =>
    refine ⟨h.pins, h.lowestStack.imp_right (hother nofun), fun symbol item hitem => ?_,
      fun w hw => ?_⟩
    · obtain ⟨hinside, hlog⟩ := h.traced symbol item hitem
      exact ⟨hinside, hlog.imp_right (hother nofun)⟩
    · obtain ⟨w', hw', rfl⟩ := List.mem_map.mp hw
      split
      · exact Or.inl rfl
      · next hne =>
        refine (h.stackWatches w' hw').imp_right (hother fun heq => hne ?_)
        obtain ⟨hlow, hhigh⟩ := Op.clearStack.inj heq
        exact Prod.ext hlow hhigh
  | resetStackWatermark =>
    refine ⟨h.pins, Or.inl rfl, fun symbol item hitem => ?_,
      fun w hw => (h.stackWatches w hw).imp_right (hother nofun)⟩
    obtain ⟨hinside, hlog⟩ := h.traced symbol item hitem
    exact ⟨hinside, hlog.imp_right (hother nofun)⟩
  | _ => cases hop

/-- **What is to be cleared is cleared**, and nothing else is touched. -/
theorem Mcu.BlankAfter.runOps {m : Mcu ι} {ops : List Op} (h : m.BlankAfter ops)
    (sim : Simavr ι) (hops : ∀ op ∈ ops, op.forgets = true) :
    (Avrsim.runOps sim m ops).Blank ∧ (Avrsim.runOps sim m ops).avr = m.avr
      ∧ (Avrsim.runOps sim m ops).shape = m.shape := by
  induction ops generalizing m with
  | nil => exact ⟨h, rfl, rfl⟩
  | cons op ops ih =>
    have hop := hops op List.mem_cons_self
    obtain ⟨hblank, havr, hshape⟩ := ih (h.exec hop) fun op hop =>
      hops op (List.mem_cons_of_mem _ hop)
    rw [runOps_cons]
    refine ⟨hblank, havr.trans ?_, hshape.trans ?_⟩
    · cases op <;> first | rfl | cases hop
    · have hexec : (Command.op op).exec sim m = .ok (Avrsim.exec sim m op).2 := rfl
      rw [shape_command hexec]
      exact register_of_not_registers m.prog m.shape (by cases op <;> first | rfl | cases hop)

/-- A machine that has only had things registered has nothing recorded. -/
theorem Mcu.Blank.register {sim : Simavr ι} {m m' : Mcu ι} {cmd : Command} (h : m.Blank)
    (hreg : cmd.registers = true) (hexec : cmd.exec sim m = .ok m') :
    m'.Blank ∧ m'.avr = m.avr := by
  cases cmd with
  | op operation =>
    cases hexec
    cases operation with
    | trace symbol =>
      have hframe : (m.trace symbol).pins = m.pins ∧ (m.trace symbol).lowestStack = m.lowestStack
          ∧ (m.trace symbol).stackWatches = m.stackWatches := by
        unfold Mcu.trace
        split <;> exact ⟨rfl, rfl, rfl⟩
      refine ⟨⟨?_, ?_, fun symbol' item hitem => ?_, ?_⟩, Mcu.trace_avr m symbol⟩
      · show ∀ (pin : PinKey) (log : PinLog), (m.trace symbol).pins[pin]? = some log → _
        rw [hframe.1]
        exact h.pins
      · show (m.trace symbol).lowestStack = _ ∨ _
        rw [hframe.2.1]
        exact h.lowestStack
      · have hitem : (m.trace symbol).traced[symbol']? = some item := hitem
        show item.inside = item.contains (m.trace symbol).avr.pc ∧ _
        rw [Mcu.trace_avr]
        rw [traced_trace] at hitem
        split at hitem
        · cases hold : m.traced[symbol']? with
          | none =>
            rw [hold] at hitem
            cases hitem
            exact ⟨rfl, Or.inl rfl⟩
          | some item' =>
            rw [hold] at hitem
            cases hitem
            exact h.traced symbol' item' hold
        · exact h.traced symbol' item hitem
      · show ∀ w ∈ (m.trace symbol).stackWatches, _
        rw [hframe.2.2]
        exact h.stackWatches
    | watchStack low high =>
      show (m.watchStack low high).Blank ∧ (m.watchStack low high).avr = m.avr
      unfold Mcu.watchStack
      split
      · exact ⟨h, rfl⟩
      · refine ⟨⟨h.pins, h.lowestStack, h.traced, fun w hw => ?_⟩, rfl⟩
        rcases List.mem_append.mp hw with hw | hw
        · exact h.stackWatches w hw
        · rw [List.mem_singleton.mp hw]
          exact Or.inl rfl
    | _ => cases hreg
  | watch port bit =>
    have hexec : m.watch sim port bit = .ok m' := hexec
    unfold Mcu.watch at hexec
    split at hexec
    · cases hexec
      exact ⟨h, rfl⟩
    · split at hexec
      · cases hexec
        refine ⟨⟨fun pin log hlog => ?_, h.lowestStack, h.traced, h.stackWatches⟩, rfl⟩
        rw [Std.TreeMap.getElem?_insert] at hlog
        split at hlog
        · exact (Option.some.inj hlog).symm
        · exact h.pins pin log hlog
      · cases hexec
  | drive port bit level => cases hreg

/-! ## Two machines with nothing recorded -/

/-- The same core, whatever is later by nothing. -/
theorem shift_zero (c : Core ι) : c.shift 0 id = c := by
  unfold Core.shift
  rw [UInt64.add_zero]
  rfl

theorem Notice.map_shift_zero (notices : List Notice) : notices.map (Notice.shift 0) = notices := by
  have hid : Notice.shift 0 = id := funext fun notice => by
    unfold Notice.shift
    rw [UInt64.add_zero]
    rfl
  rw [hid, List.map_id]

/-- Every core does the same no cycles later. -/
theorem shifts_zero (sim : Simavr ι) : sim.Shifts 0 id where
  run := fun c _ => by
    rw [shift_zero, shift_zero, Notice.map_shift_zero]
  raise := fun pin value c => by
    rw [shift_zero, shift_zero, Notice.map_shift_zero]

theorem stackWatches_of_blank {m : Mcu ι} (h : m.Blank) :
    m.stackWatches = m.shape.ranges.map fun range => StackWatch.new range.1 range.2 := by
  unfold Mcu.shape
  rw [List.map_map]
  have hall : ∀ w ∈ m.stackWatches, w = StackWatch.new w.low w.high := fun w hw =>
    (h.stackWatches w hw).resolve_right List.not_mem_nil
  conv_lhs => rw [← List.map_id m.stackWatches]
  exact List.map_congr_left hall

/-- Two entries with one extent and nothing recorded. -/
theorem Traced.shift_of_blank {item item' : Traced} {pc : UInt32}
    (hextent : item'.extent = item.extent) (hlog : item.log = Trace.new)
    (hlog' : item'.log = Trace.new) (hinside : item.inside = item.contains pc)
    (hinside' : item'.inside = item'.contains pc) : item' = item.shift 0 := by
  obtain ⟨begin, stop, inside, log⟩ := item
  obtain ⟨begin', stop', inside', log'⟩ := item'
  obtain ⟨hbegin, hstop⟩ : begin' = begin ∧ stop' = stop := Prod.mk.inj hextent
  subst hbegin hstop
  have hlog : log = Trace.new := hlog
  have hlog' : log' = Trace.new := hlog'
  subst hlog hlog'
  have hsame : inside' = inside := hinside'.trans hinside.symm
  rw [hsame]
  rfl

/-- **Two machines with the same core and the same things registered, and nothing recorded.** -/
theorem shiftedBy_of_blank {m m' : Mcu ι} (hprog : m'.prog = m.prog) (havr : m'.avr = m.avr)
    (hshape : m'.shape = m.shape) (h : m.Blank) (h' : m'.Blank) : m.ShiftedBy 0 id m' := by
  have hwatched : ∀ pin : PinKey, m'.pins.contains pin = m.pins.contains pin := fun pin =>
    congrFun (congrArg Shape.watched hshape) pin
  have hextents : ∀ symbol : String,
      m'.traced[symbol]?.map Traced.extent = m.traced[symbol]?.map Traced.extent := fun symbol =>
    congrFun (congrArg Shape.extents hshape) symbol
  refine ⟨hprog, havr.trans (shift_zero m.avr).symm, fun pin => ?_, congrArg Shape.hooks hshape, ?_,
    fun symbol => ?_, ?_⟩
  · have hpin := hwatched pin
    rw [Std.TreeMap.contains_eq_isSome_getElem?, Std.TreeMap.contains_eq_isSome_getElem?] at hpin
    cases hlog : m.pins[pin]? with
    | none =>
      rw [hlog, Option.isSome_none, Option.isSome_eq_false_iff, Option.isNone_iff_eq_none] at hpin
      exact hpin
    | some log =>
      rw [hlog, Option.isSome_some] at hpin
      obtain ⟨log', hlog'⟩ := Option.isSome_iff_exists.mp hpin
      rw [hlog', h'.pins pin log' hlog', h.pins pin log hlog]
      rfl
  · rw [h.lowestStack.resolve_right List.not_mem_nil, h'.lowestStack.resolve_right List.not_mem_nil]
  · have hextent := hextents symbol
    cases hitem : m.traced[symbol]? with
    | none =>
      rw [hitem] at hextent
      simpa using hextent
    | some item =>
      rw [hitem, Option.map_some] at hextent
      obtain ⟨item', hitem', hextent⟩ := Option.map_eq_some_iff.mp hextent
      obtain ⟨hinside, hlog⟩ := h.traced symbol item hitem
      obtain ⟨hinside', hlog'⟩ := h'.traced symbol item' hitem'
      rw [havr] at hinside'
      rw [hitem', Option.map_some, Traced.shift_of_blank hextent
        (hlog.resolve_right List.not_mem_nil) (hlog'.resolve_right List.not_mem_nil) hinside
        hinside']
  · rw [stackWatches_of_blank h, stackWatches_of_blank h', hshape]

/-! ## What a test sees -/

/-- All that can be read back from a machine. -/
structure Shown where
  data : UInt16 → UInt8
  sreg : UInt8
  cycle : UInt64
  lowestStack : UInt16
  stackWatches : List StackWatch
  visits : String → Option (List Visit)
  transitions : PinKey → Option (List Transition)

def Mcu.shown (m : Mcu ι) : Shown where
  data := m.data
  sreg := m.sreg
  cycle := m.cycle
  lowestStack := m.lowestStack
  stackWatches := m.stackWatches
  visits := fun symbol => m.traced[symbol]?.map fun item => item.log.visits
  transitions := fun pin => m.pins[pin]?.map PinLog.transitions

/-- What a test sees of a session: what each command returns, and what can be read after it. -/
def observed (sim : Simavr ι) : Mcu ι → List Command → List (Except String (Outcome × Shown))
  | _, [] => []
  | m, cmd :: cmds =>
    match cmd.exec sim m with
    | .error message => [.error message]
    | .ok m' => .ok (cmd.outcome sim m, m'.shown) :: observed sim m' cmds

theorem Visit.shift_zero (v : Visit) : v.shift 0 = v := by
  unfold Visit.shift
  rw [UInt64.add_zero, UInt64.add_zero]

theorem Transition.shift_zero (t : Transition) : t.shift 0 = t := by
  unfold Transition.shift
  rw [UInt64.add_zero]

namespace Mcu.ShiftedBy

variable {m m' : Mcu ι} (h : m.ShiftedBy 0 id m')

include h

theorem shown : m'.shown = m.shown := by
  have havr : m'.avr = m.avr := h.avr.trans (shift_zero m.avr)
  have hvisits : ∀ symbol : String, m'.traced[symbol]?.map (fun item => item.log.visits)
      = m.traced[symbol]?.map fun item => item.log.visits := fun symbol => by
    rw [h.traced symbol, Option.map_map]
    refine congrArg (Option.map · _) (funext fun item => ?_)
    show item.log.visits.map (Visit.shift 0) = _
    rw [funext Visit.shift_zero, List.map_id']
  have htransitions : ∀ pin : PinKey, m'.pins[pin]?.map PinLog.transitions
      = m.pins[pin]?.map PinLog.transitions := fun pin => by
    rw [h.pins pin, Option.map_map]
    refine congrArg (Option.map · _) (funext fun log => ?_)
    show log.transitions.map (Transition.shift 0) = _
    rw [funext Transition.shift_zero, List.map_id']
  unfold Mcu.shown Mcu.data Mcu.sreg Mcu.cycle
  simp only [hvisits, htransitions, havr, h.prog, h.lowestStack, h.stackWatches]

/-- Also a reset leaves the same, when neither is later. -/
theorem reset (sim : Simavr ι) : (m.reset sim).ShiftedBy 0 id (m'.reset sim) := by
  have hreset : sim.avrReset m'.avr
      = ((sim.avrReset m.avr).1.shift 0 id, (sim.avrReset m.avr).2.map (Notice.shift 0)) := by
    rw [h.avr, shift_zero, shift_zero, Notice.map_shift_zero]
  have habsorb := h.absorb hreset
  refine ⟨h.prog, habsorb.avr, fun pin => ?_, h.hooks, h.lowestStack, h.traced, h.stackWatches⟩
  show ((m'.absorb (sim.avrReset m'.avr)).pins.map fun _ log => log.clear)[pin]?
    = ((m.absorb (sim.avrReset m.avr)).pins.map fun _ log => log.clear)[pin]?.map (PinLog.shift 0)
  rw [Std.TreeMap.getElem?_map, Std.TreeMap.getElem?_map, habsorb.pins pin, Option.map_map,
    Option.map_map]
  rfl

/-- **No session can tell the two machines apart.** -/
theorem observed_eq (sim : Simavr ι) (cmds : List Command) :
    observed sim m' cmds = observed sim m cmds := by
  induction cmds generalizing m m' with
  | nil => rfl
  | cons cmd cmds ih =>
    rw [observed, observed]
    by_cases hcmd : cmd = .op .reset
    · subst hcmd
      have hrel := h.reset sim
      show .ok (Outcome.nothing, (m'.reset sim).shown) :: observed sim (m'.reset sim) cmds
        = .ok (Outcome.nothing, (m.reset sim).shown) :: observed sim (m.reset sim) cmds
      rw [hrel.shown, ih hrel]
    · obtain ⟨houtcome, hexec⟩ := h.command (shifts_zero sim) hcmd
      rcases hexec with ⟨message, herror, herror'⟩ | ⟨m₁, m₁', hok, hok', h₁⟩
      · rw [herror, herror']
      · rw [hok, hok', houtcome]
        simp only
        rw [h₁.shown, ih h₁]

end Mcu.ShiftedBy

/-! ## Starting over -/

/-- What is to be cleared of what a command has registered. -/
def Command.clear? : Command → Option Op
  | .op (.trace symbol) => some (.clearTrace symbol)
  | .op (.watchStack low high) => some (.clearStack low high)
  | _ => none

/-- Clear what some commands have registered, and the watermark. -/
def clearAll (cmds : List Command) : List Op :=
  cmds.filterMap Command.clear? ++ [.resetStackWatermark]

theorem forgets_of_mem_clearAll {cmds : List Command} {op : Op} (h : op ∈ clearAll cmds) :
    op.forgets = true := by
  rcases List.mem_append.mp h with h | h
  · obtain ⟨cmd, -, hcmd⟩ := List.mem_filterMap.mp h
    cases cmd with
    | op operation => cases operation <;> cases hcmd <;> rfl
    | watch port bit => cases hcmd
    | drive port bit level => cases hcmd
  · rw [List.mem_singleton.mp h]
    rfl

theorem shape_ofProgram (prog : Program) (clockHz : UInt32) (c : Core ι) :
    (Mcu.ofProgram prog clockHz c).shape = ⟨[], fun _ => false, fun _ => none, []⟩ := by
  have hwatched : (fun pin : PinKey => (∅ : PinMap).contains pin) = fun _ => false :=
    funext fun _ => Std.TreeMap.contains_emptyc
  have hextents : (fun symbol : String => (∅ : Std.TreeMap String Traced)[symbol]?.map
      Traced.extent) = fun _ => none :=
    funext fun _ => by rw [Std.TreeMap.getElem?_emptyc, Option.map_none]
  exact congrArg₂ (fun watched extents => (⟨[], watched, extents, []⟩ : Shape)) hwatched hextents

theorem blank_ofProgram (prog : Program) (clockHz : UInt32) (c : Core ι) :
    (Mcu.ofProgram prog clockHz c).Blank where
  pins := fun pin log h => by
    have hnone : (∅ : PinMap)[pin]? = none := Std.TreeMap.getElem?_emptyc
    exact absurd (hnone.symm.trans h) nofun
  lowestStack := Or.inl rfl
  traced := fun symbol item h => by
    have hnone : (∅ : Std.TreeMap String Traced)[symbol]? = none := Std.TreeMap.getElem?_emptyc
    exact absurd (hnone.symm.trans h) nofun
  stackWatches := fun _ hw => absurd hw List.not_mem_nil

/-- After a reset the rest of what has been recorded can be cleared. -/
theorem blankAfter_reset {sim : Simavr ι} {prog : Program} {clockHz : UInt32} {c₀ : Core ι}
    {cmds : List Command} {m : Mcu ι}
    (hrun : session sim (Mcu.ofProgram prog clockHz c₀) cmds = .ok m)
    (hinside : ∀ (symbol : String) (item : Traced), m.traced[symbol]? = some item →
      item.inside = item.contains (sim.avrReset m.avr).1.pc) :
    (m.reset sim).BlankAfter (clearAll cmds) := by
  have hshape := shape_session hrun
  rw [shape_ofProgram] at hshape
  refine ⟨fun pin log hlog => ?_, Or.inr (by simp [clearAll]), fun symbol item hitem => ?_,
    fun w hw => ?_⟩
  · have hlog : ((m.absorb (sim.avrReset m.avr)).pins.map fun _ log => log.clear)[pin]?
        = some log := hlog
    rw [Std.TreeMap.getElem?_map] at hlog
    obtain ⟨log', -, rfl⟩ := Option.map_eq_some_iff.mp hlog
    rfl
  · refine ⟨hinside symbol item hitem, Or.inr ?_⟩
    have hsome : (m.shape.extents symbol).isSome = true := by
      show (m.traced[symbol]?.map Traced.extent).isSome = true
      rw [show m.traced[symbol]? = some item from hitem]
      rfl
    rw [hshape] at hsome
    rcases mem_of_extents _ symbol hsome with hnone | hmem
    · cases hnone
    · exact List.mem_append_left _ (List.mem_filterMap.mpr ⟨_, hmem, rfl⟩)
  · refine Or.inr ?_
    have hrange : (w.low, w.high) ∈ m.shape.ranges := List.mem_map.mpr ⟨w, hw, rfl⟩
    rw [hshape] at hrange
    rcases mem_of_ranges _ hrange with hnone | hmem
    · cases hnone
    · exact List.mem_append_left _ (List.mem_filterMap.mpr ⟨_, hmem, rfl⟩)

/-- The registrations of a session can be made on a machine with nothing recorded. -/
theorem exists_registered {sim : Simavr ι} {cmds : List Command} {m m' n : Mcu ι}
    (hrun : session sim m cmds = .ok m') (h : n.Blank) (hprog : n.prog = m.prog)
    (hshape : n.shape = m.shape) :
    ∃ n', session sim n (cmds.filter Command.registers) = .ok n' ∧ n'.Blank ∧ n'.avr = n.avr
      ∧ n'.prog = m'.prog ∧ n'.shape = m'.shape := by
  induction cmds generalizing m n with
  | nil =>
    cases session_nil.mp hrun
    exact ⟨n, rfl, h, rfl, hprog, hshape⟩
  | cons cmd cmds ih =>
    obtain ⟨m₁, hcmd, hrest⟩ := session_cons.mp hrun
    cases hreg : cmd.registers with
    | false =>
      have hsame : m₁.shape = m.shape := by
        rw [shape_command hcmd, register_of_not_registers _ _ hreg]
      rw [List.filter_cons_of_neg (by simp [hreg])]
      exact ih hrest h (hprog.trans (Command.exec_prog hcmd).symm) (hshape.trans hsame.symm)
    | true =>
      rw [List.filter_cons_of_pos hreg]
      obtain ⟨n₁, hexec⟩ : ∃ n₁, cmd.exec sim n = .ok n₁ := by
        cases cmd with
        | op operation => exact ⟨_, rfl⟩
        | watch port bit =>
          -- the pin is there, since it could be watched the first time
          have hpin : n.pins.contains (port, bit) = m.pins.contains (port, bit) :=
            congrFun (congrArg Shape.watched hshape) (port, bit)
          have hcmd : m.watch sim port bit = .ok m₁ := hcmd
          unfold Mcu.watch at hcmd
          show ∃ n₁, n.watch sim port bit = .ok n₁
          unfold Mcu.watch
          rw [hpin]
          split at hcmd
          · next hc => exact ⟨n, if_pos hc⟩
          · next hc =>
            rw [if_neg hc]
            split at hcmd
            · next hirq => exact ⟨_, if_pos hirq⟩
            · cases hcmd
        | drive port bit level => exact ⟨_, rfl⟩
      obtain ⟨hblank, havr⟩ := h.register hreg hexec
      obtain ⟨n', hsession, hblank', havr', hprog', hshape'⟩ := ih (n := n₁) hrest hblank
        ((Command.exec_prog hexec).trans (hprog.trans (Command.exec_prog hcmd).symm))
        (by rw [shape_command hexec, shape_command hcmd, hshape, hprog])
      exact ⟨n', session_cons.mpr ⟨n₁, hexec, hsession⟩, hblank', havr'.trans havr, hprog', hshape'⟩

/--
**A machine that starts over is as good as a new one.**

Whatever has been done to a machine, once it is reset and all it has registered is cleared, no
session can tell it from a machine that is new with the core the reset leaves, and has the same
things registered in the same order. What `clear` does not touch is whether a traced function is
occupied, so that has to be as the reset leaves it.
-/
theorem starts_over {sim : Simavr ι} {prog : Program} {clockHz : UInt32} {c₀ : Core ι}
    {cmds : List Command} {m : Mcu ι}
    (hrun : session sim (Mcu.ofProgram prog clockHz c₀) cmds = .ok m)
    (hinside : ∀ (symbol : String) (item : Traced), m.traced[symbol]? = some item →
      item.inside = item.contains (sim.avrReset m.avr).1.pc) :
    ∃ n, session sim (Mcu.ofProgram prog clockHz (sim.avrReset m.avr).1)
        (cmds.filter Command.registers) = .ok n
      ∧ ∀ later, observed sim (runOps sim m (.reset :: clearAll cmds)) later
          = observed sim n later := by
  obtain ⟨hblank, havr, hshape⟩ := (blankAfter_reset hrun hinside).runOps sim
    fun op hop => forgets_of_mem_clearAll hop
  obtain ⟨n, hn, hblank', havr', hprog', hshape'⟩ := exists_registered
    (n := Mcu.ofProgram prog clockHz (sim.avrReset m.avr).1) hrun
    (blank_ofProgram prog clockHz _) rfl
    (by rw [shape_ofProgram, shape_ofProgram])
  refine ⟨n, hn, fun later => ?_⟩
  have hprog : (runOps sim m (.reset :: clearAll cmds)).prog = n.prog := by
    rw [runOps_prog, hprog']
  refine (shiftedBy_of_blank hprog ?_ ?_ hblank' hblank).observed_eq sim later
  · rw [havr']
    exact havr
  · rw [hshape', ← shape_reset sim m]
    exact hshape

/-- Two functions that take turns, the second of them traced, after the first turn. -/
theorem starts_over_turns :
    ∃ m, session Isa.simavr Isa.turns
        [.op (.trace "f"), .op (.watchStack 0x800 0x8FF), .op (.run 5)] = .ok m
      ∧ ∃ n, session Isa.simavr
          (Mcu.ofProgram Isa.turns.prog 16000000 (Isa.simavr.avrReset m.avr).1)
          [.op (.trace "f"), .op (.watchStack 0x800 0x8FF)] = .ok n
        ∧ ∀ later, observed Isa.simavr (runOps Isa.simavr m [.reset, .clearTrace "f",
              .clearStack 0x800 0x8FF, .resetStackWatermark]) later
            = observed Isa.simavr n later := by
  have hrun : session Isa.simavr (Mcu.ofProgram Isa.turns.prog 16000000 Isa.turns.avr)
      [.op (.trace "f"), .op (.watchStack 0x800 0x8FF), .op (.run 5)]
        = .ok (runOps Isa.simavr Isa.turns [.trace "f", .watchStack 0x800 0x8FF, .run 5]) := rfl
  refine ⟨_, hrun, starts_over hrun ?_⟩
  intro symbol item hitem
  have hmem := Std.TreeMap.mem_toList_iff_getElem?_eq_some.mpr hitem
  have hlist : (runOps Isa.simavr Isa.turns [.trace "f", .watchStack 0x800 0x8FF,
      .run 5]).traced.toList = [("f", ⟨4, 8, false, ⟨[⟨2, 5, 3, true⟩]⟩⟩)] := by decide +kernel
  have hmem := (congrArg ((symbol, item) ∈ ·) hlist).mp hmem
  obtain ⟨-, rfl⟩ : symbol = "f" ∧ item = _ := by simpa using hmem
  decide +kernel

end Avrsim
