import Avrsim.Properties.Extents
import Avrsim.Properties.PinLogs
import Avrsim.Properties.StackMarks

/-!
# Reachable machines

What holds of every machine a test can get to, whatever core it runs on and whatever is done to it.

* `Trace.WellFormed`, `StackWatch.WellFormed` — one log, one watch
* `Mcu.WellFormed` — the whole machine
* `Mcu.WellFormed.command` — every command keeps a machine well formed
* `wellFormed_of_load` — so every session on a loaded image leaves one
-/

namespace Avrsim

open Infra.Loop

variable {ι : Type}

/-! ## One log -/

/--
Every visit costs what lies between its ends. Only the last one may be open, and it is as long as
control is inside.
-/
structure Trace.WellFormed (t : Trace) (inside : Bool) : Prop where
  cost : ∀ v ∈ t.visits, v.cycles = v.exit - v.entry
  closed : ∀ v ∈ t.visits.dropLast, v.complete = true
  last : ∀ v ∈ t.visits.getLast?, v.complete = !inside

namespace Trace

theorem wellFormed_of_nil {t : Trace} (h : t.visits = []) (inside : Bool) :
    t.WellFormed inside := by
  constructor <;> simp [h]

/-- With control outside no visit is open. -/
theorem WellFormed.complete {t : Trace} (h : t.WellFormed false) :
    ∀ v ∈ t.visits, v.complete = true := by
  intro v hv
  rcases List.eq_nil_or_concat t.visits with hnil | ⟨init, last, hsplit⟩
  · rw [hnil] at hv
    cases hv
  · rw [List.concat_eq_append] at hsplit
    obtain ⟨-, hclosed, hlast⟩ := h
    rw [hsplit] at hv hclosed hlast
    simp only [List.mem_append, List.mem_singleton] at hv
    rcases hv with hv | rfl
    · exact hclosed v (by simpa using hv)
    · exact hlast v (by simp)

theorem WellFormed.enter {t : Trace} (h : t.WellFormed false) (cycle : UInt64) :
    (t.enter cycle).WellFormed true := by
  constructor
  · intro v hv
    simp only [enter_visits, List.mem_append, List.mem_singleton] at hv
    rcases hv with hv | rfl
    · exact h.cost v hv
    · simp
  · intro v hv
    exact h.complete v (by simpa using hv)
  · intro v hv
    obtain rfl : (⟨cycle, cycle, 0, false⟩ : Visit) = v := by simpa using hv
    rfl

theorem WellFormed.leave {t : Trace} (h : t.WellFormed true) (cycle : UInt64) :
    (t.leave cycle).WellFormed false := by
  rcases List.eq_nil_or_concat t.visits with hnil | ⟨init, last, hsplit⟩
  · rw [leave_of_nil hnil]
    exact wellFormed_of_nil hnil false
  · rw [List.concat_eq_append] at hsplit
    obtain ⟨hcost, hclosed, hlast⟩ := h
    rw [hsplit] at hcost hclosed hlast
    have hopen : last.complete = false := by simpa using hlast last (by simp)
    constructor
    · intro v hv
      simp only [leave_of_open hsplit hopen, List.mem_append, List.mem_singleton] at hv
      rcases hv with hv | rfl
      · exact hcost v (List.mem_append_left _ hv)
      · rfl
    · intro v hv
      rw [leave_of_open hsplit hopen, List.dropLast_concat] at hv
      exact hclosed v (by simpa using hv)
    · intro v hv
      rw [leave_of_open hsplit hopen, List.getLast?_concat] at hv
      cases hv
      rfl

end Trace

/-! ## One function, one watch -/

/-- The extent is that of the symbol, and the log goes with where control was last seen. -/
structure Traced.WellFormed (prog : Program) (symbol : String) (item : Traced) : Prop where
  begin : item.begin = (Traced.new prog symbol 0).begin
  «end» : item.end = (Traced.new prog symbol 0).end
  log : item.log.WellFormed item.inside

theorem Traced.wellFormed_new (prog : Program) (symbol : String) (pc : UInt32) :
    (Traced.new prog symbol pc).WellFormed prog symbol :=
  ⟨rfl, rfl, Trace.wellFormed_of_nil rfl _⟩

theorem Traced.WellFormed.sample {prog : Program} {symbol : String} {item : Traced}
    (h : item.WellFormed prog symbol) (pc : UInt32) (cycle : UInt64) :
    (item.sample pc cycle).WellFormed prog symbol := by
  refine ⟨h.begin, h.end, ?_⟩
  have hlog := h.log
  rw [Traced.sample_inside]
  unfold Traced.sample
  cases hpc : item.contains pc with
  | true =>
    cases hinside : item.inside with
    | true => simpa [hinside] using hlog
    | false => simpa using (hinside ▸ hlog).enter cycle
  | false =>
    cases hinside : item.inside with
    | true => simpa using (hinside ▸ hlog).leave cycle
    | false => simpa [hinside] using hlog

/-- What has been entered has its mark inside the range, and what has not has none. -/
structure StackWatch.WellFormed (w : StackWatch) : Prop where
  entered : w.entered = true → w.low ≤ w.myLowest ∧ w.myLowest ≤ w.high
  unentered : w.entered = false → w.myLowest = noMark

theorem StackWatch.wellFormed_of_unentered {w : StackWatch} (he : w.entered = false)
    (hmark : w.myLowest = noMark) : w.WellFormed := by
  constructor
  · intro h
    rw [he] at h
    cases h
  · exact fun _ => hmark

/-- A stack pointer in the range is recorded. -/
theorem StackWatch.sample_of_mem {w : StackWatch} {ptr : UInt16}
    (h : w.low ≤ ptr ∧ ptr ≤ w.high) : w.sample ptr = { w with
      myLowest := if !w.entered || ptr < w.myLowest then ptr else w.myLowest
      entered := true } := by
  simp [StackWatch.sample, h]

/-- Any other is ignored. -/
theorem StackWatch.sample_of_not_mem {w : StackWatch} {ptr : UInt16}
    (h : ¬ (w.low ≤ ptr ∧ ptr ≤ w.high)) : w.sample ptr = w := by
  simp only [StackWatch.sample]
  rw [if_pos]
  simpa [-UInt16.not_le, Classical.or_iff_not_imp_left] using h

theorem StackWatch.WellFormed.sample {w : StackWatch} (h : w.WellFormed) (ptr : UInt16) :
    (w.sample ptr).WellFormed := by
  by_cases hin : w.low ≤ ptr ∧ ptr ≤ w.high
  · rw [StackWatch.sample_of_mem hin]
    refine ⟨fun _ => ?_, fun he => absurd he (by simp)⟩
    cases he : w.entered with
    | false => simpa using hin
    | true =>
      simp only [Bool.not_true, Bool.false_or, decide_eq_true_eq]
      split
      · exact hin
      · exact h.entered he
  · rw [StackWatch.sample_of_not_mem hin]
    exact h

/-- The depth of a watch that has been entered is the distance from the top, with no wrap. -/
theorem StackWatch.WellFormed.toNat_deepestBytes {w : StackWatch} (h : w.WellFormed)
    (he : w.entered = true) : w.deepestBytes.toNat = w.high.toNat - w.lowest.toNat := by
  have hle := (h.entered he).2
  simp only [StackWatch.deepestBytes, StackWatch.lowest, he, if_true]
  exact UInt16.toNat_sub_of_le _ _ hle

/-! ## The machine -/

/-- Every record is well formed, no range is watched twice, and every watched pin has one hook. -/
structure Mcu.WellFormed (m : Mcu ι) : Prop where
  traced : ∀ (symbol : String) (item : Traced), m.traced[symbol]? = some item →
    item.WellFormed m.prog symbol
  watches : ∀ w ∈ m.stackWatches, w.WellFormed
  ranges : (m.stackWatches.map StackWatch.range).Nodup
  pins : m.PinsWired

namespace Mcu.WellFormed

variable {m m' : Mcu ι} (h : m.WellFormed)

include h

/-- Another core, and the same records. -/
theorem withCore (c : Core ι) : ({ m with avr := c } : Mcu ι).WellFormed :=
  ⟨h.traced, h.watches, h.ranges, h.pins⟩

theorem absorb (r : Core ι × List Notice) : (m.absorb r).WellFormed :=
  ⟨h.traced, h.watches, h.ranges, h.pins.absorb r⟩

theorem sampleStack : m.sampleStack.WellFormed := by
  refine ⟨h.traced, ?_, ?_, h.pins⟩
  · intro w hw
    obtain ⟨w₀, hw₀, rfl⟩ := List.mem_map.mp hw
    exact (h.watches w₀ hw₀).sample m.avr.sp
  · have hranges := map_range_map (fun w => StackWatch.range_sample m.avr.sp w) m.stackWatches
    exact hranges ▸ h.ranges

theorem sampleTraces : m.sampleTraces.WellFormed := by
  refine ⟨?_, h.watches, h.ranges, h.pins⟩
  intro symbol item hitem
  rw [Mcu.sampleTraces, Std.TreeMap.getElem?_map] at hitem
  obtain ⟨old, hold, rfl⟩ := Option.map_eq_some_iff.mp hitem
  exact (h.traced symbol old hold).sample m.avr.pc m.avr.cycle

theorem tick (sim : Simavr ι) : (m.tick sim).WellFormed :=
  (h.absorb (sim.avrRun m.avr)).sampleStack.sampleTraces

theorem runLoop (sim : Simavr ι) (l : StepLoop ι) : (m.runLoop sim l).WellFormed :=
  stepWhile_induction (P := Mcu.WellFormed) (fun _ h' => h'.tick sim) l.cap _ (h.withCore l.start)

theorem trace (symbol : String) : (m.trace symbol).WellFormed := by
  have hprog := Mcu.trace_prog m symbol
  refine ⟨?_, ?_, ?_, ?_⟩
  · intro symbol' item hitem
    rw [traced_trace] at hitem
    rw [hprog]
    split at hitem
    · next heq =>
      subst heq
      cases hold : m.traced[symbol]? with
      | none =>
        obtain rfl : Traced.new m.prog symbol m.avr.pc = item := by simpa [hold] using hitem
        exact Traced.wellFormed_new m.prog symbol m.avr.pc
      | some old =>
        obtain rfl : old = item := by simpa [hold] using hitem
        exact h.traced symbol old hold
    · exact h.traced symbol' item hitem
  · unfold Mcu.trace
    split <;> exact h.watches
  · unfold Mcu.trace
    split <;> exact h.ranges
  · unfold Mcu.trace
    split <;> exact h.pins

theorem clearTrace (symbol : String) : (m.clearTrace symbol).WellFormed := by
  refine ⟨?_, h.watches, h.ranges, h.pins⟩
  intro symbol' item hitem
  rw [traced_clearTrace] at hitem
  split at hitem
  · obtain ⟨old, hold, rfl⟩ := Option.map_eq_some_iff.mp hitem
    have hextent := h.traced symbol' old hold
    exact ⟨hextent.begin, hextent.end, Trace.wellFormed_of_nil rfl _⟩
  · exact h.traced symbol' item hitem

theorem watchStack (low high : UInt16) : (m.watchStack low high).WellFormed := by
  have hranges := ranges_watchStack m low high
  refine ⟨?_, ?_, ?_, ?_⟩
  · unfold Mcu.watchStack
    split <;> exact h.traced
  · unfold Mcu.watchStack
    split
    · exact h.watches
    · intro w hw
      rcases List.mem_append.mp hw with hw | hw
      · exact h.watches w hw
      · rw [List.mem_singleton.mp hw]
        exact StackWatch.wellFormed_of_unentered rfl rfl
  · rw [hranges]
    split
    · exact h.ranges
    · next hnew =>
      refine List.nodup_append.mpr ⟨h.ranges, List.nodup_singleton _, ?_⟩
      rintro a ha b hb rfl
      rw [List.mem_singleton] at hb
      exact hnew (hb ▸ ha)
  · unfold Mcu.watchStack
    split <;> exact h.pins

theorem clearStack (low high : UInt16) : (m.clearStack low high).WellFormed := by
  refine ⟨h.traced, ?_, ?_, h.pins⟩
  · intro w hw
    obtain ⟨w₀, hw₀, rfl⟩ := List.mem_map.mp hw
    split
    · exact StackWatch.wellFormed_of_unentered rfl rfl
    · exact h.watches w₀ hw₀
  · have hranges : (m.clearStack low high).stackWatches.map StackWatch.range
        = m.stackWatches.map StackWatch.range :=
      map_range_map (fun w => by split <;> simp) m.stackWatches
    rw [hranges]
    exact h.ranges

end Mcu.WellFormed

/-! ## Sessions -/

theorem Mcu.WellFormed.exec {m : Mcu ι} (h : m.WellFormed) (sim : Simavr ι) (op : Op) :
    (exec sim m op).2.WellFormed := by
  -- every operation keeps the wiring of the pins
  have hpins := (h.pins.pins_exec sim op default).1
  cases hl : m.prog.stepLoop m.avr op with
  | some l =>
    rw [exec_snd_of_stepLoop sim hl]
    exact h.runLoop sim l
  | none =>
    cases hs : op.steps with
    | true =>
      rw [exec_of_stepLoop_none sim hs hl]
      exact h
    | false =>
      cases op with
      | reset => exact ⟨h.traced, h.watches, h.ranges, hpins⟩
      | trace symbol => exact h.trace symbol
      | clearTrace symbol => exact h.clearTrace symbol
      | watchStack low high => exact h.watchStack low high
      | clearStack low high => exact h.clearStack low high
      | resetStackWatermark => exact ⟨h.traced, h.watches, h.ranges, hpins⟩
      | setReg index value => exact h.withCore _
      | setRegPair low value => exact h.withCore _
      | setData addr value => exact h.withCore _
      | setSreg value => exact h.withCore _
      | call | run | runUntil => cases hs

theorem Mcu.WellFormed.command {m m' : Mcu ι} (h : m.WellFormed) {sim : Simavr ι} {cmd : Command}
    (hexec : cmd.exec sim m = .ok m') : m'.WellFormed := by
  cases cmd with
  | op operation =>
    cases hexec
    exact h.exec sim operation
  | watch port bit =>
    have hpins := (h.pins.pins_watch hexec default).1
    have hrecords : m'.prog = m.prog ∧ m'.traced = m.traced ∧ m'.stackWatches = m.stackWatches := by
      have hwatch : m.watch sim port bit = .ok m' := hexec
      unfold Mcu.watch at hwatch
      split at hwatch
      · cases hwatch
        exact ⟨rfl, rfl, rfl⟩
      · split at hwatch
        · cases hwatch
          exact ⟨rfl, rfl, rfl⟩
        · cases hwatch
    obtain ⟨hprog, htraced, hwatches⟩ := hrecords
    refine ⟨?_, ?_, ?_, hpins⟩
    · rw [hprog, htraced]
      exact h.traced
    · rw [hwatches]
      exact h.watches
    · rw [hwatches]
      exact h.ranges
  | drive port bit level =>
    cases hexec
    unfold Mcu.drive
    split
    · exact h.absorb _
    · exact h

theorem wellFormed_ofProgram (prog : Program) (clockHz : UInt32) (c : Core ι) :
    (Mcu.ofProgram prog clockHz c).WellFormed := by
  refine ⟨?_, ?_, List.nodup_nil, (pinsOk_ofProgram prog clockHz c).wired⟩
  · intro symbol item hitem
    have hempty : (Mcu.ofProgram prog clockHz c).traced[symbol]? = none :=
      Std.TreeMap.getElem?_emptyc
    rw [hempty] at hitem
    cases hitem
  · intro w hw
    cases hw

theorem wellFormed_load {sim : Simavr ι} {files : Files} {imagePath : String} {clockHz : UInt32}
    {m : Mcu ι} (h : Mcu.load sim files imagePath clockHz = .ok m) : m.WellFormed := by
  rcases load_cases h with ⟨-, part, symbols, codeEnd, c, -, rfl⟩ | ⟨-, part, firmware, c, rfl⟩
  · exact wellFormed_ofProgram _ clockHz c
  · exact wellFormed_ofProgram _ clockHz c

/-- Every session keeps a machine well formed, and its program. -/
theorem wellFormed_session {sim : Simavr ι} : ∀ {m m' : Mcu ι} {cmds : List Command},
    m.WellFormed → session sim m cmds = .ok m' → m'.WellFormed ∧ m'.prog = m.prog
  | m, m', [], h, hsession => by
    rw [session_nil] at hsession
    subst hsession
    exact ⟨h, rfl⟩
  | m, m', cmd :: cmds, h, hsession => by
    obtain ⟨m₁, hexec, hrest⟩ := session_cons.mp hsession
    obtain ⟨h', hprog⟩ := wellFormed_session (h.command hexec) hrest
    exact ⟨h', hprog.trans (h.pins.exec hexec default).2.1⟩

/--
**Every machine a test can reach is well formed.** After any session on any loaded image, every log
costs its visits at what lies between their ends and has none open but the last, and that one
exactly while control is inside; every traced extent is still that of its symbol; every watch that
has been entered has its mark in its range; and no range is watched twice and no pin hooked twice.
-/
theorem wellFormed_of_load {sim : Simavr ι} {files : Files} {imagePath : String}
    {clockHz : UInt32} {m m' : Mcu ι} {cmds : List Command}
    (hload : Mcu.load sim files imagePath clockHz = .ok m)
    (hsession : session sim m cmds = .ok m') : m'.WellFormed ∧ m'.prog = m.prog :=
  wellFormed_session (wellFormed_load hload) hsession

/-- Two traces, a watch and a clear, on both sides of a reset. -/
theorem wellFormed_of_load_turns :
    ∃ m', session Isa.simavr Isa.turns
        [.op (.trace "f"), .op (.watchStack 0x0500 0x08FF), .op (.run 7), .op .reset,
          .op (.clearTrace "f"), .op (.call "main" 5), .drive 'B' 5 true, .op (.run 3)] = .ok m'
      ∧ m'.WellFormed ∧ m'.prog = Isa.turns.prog := by
  have hok : ∃ m', session Isa.simavr Isa.turns
      [.op (.trace "f"), .op (.watchStack 0x0500 0x08FF), .op (.run 7), .op .reset,
        .op (.clearTrace "f"), .op (.call "main" 5), .drive 'B' 5 true, .op (.run 3)] = .ok m' :=
    ⟨_, rfl⟩
  obtain ⟨m', hm'⟩ := hok
  exact ⟨m', hm', wellFormed_of_load
    (Isa.load_eq_boot Isa.turnsFiles [0x0000, 0x0000, 0x0000, 0xCFFC] _ rfl) hm'⟩

end Avrsim
