import Avrsim.Properties.WellFormed

/-!
# The levels of a pin

A core that raises a pin the first time its level is set, and after that only when it changes,
leaves logs in which high and low alternate, and what the log calls the current level is the level
the pin has.

* `Toggles` — a path of levels, each different from the one before
* `Simavr.TogglesOnly` — a core with levels, that raises a pin when its level changes
* `pins_toggle` — what the logs then say, after any session
-/

namespace Avrsim

open Infra.Loop

variable {ι : Type}

/-! ## Paths of levels -/

/--
From the first level over those in the list to the last, never from one level to the same. Before
it is set for the first time the level is `none`.
-/
inductive Toggles : Option Bool → List Bool → Option Bool → Prop where
  | stay (level : Option Bool) : Toggles level [] level
  | change {level last : Option Bool} {next : Bool} {rest : List Bool} (hne : level ≠ some next)
      (h : Toggles (some next) rest last) : Toggles level (next :: rest) last

theorem Toggles.append {a b c : Option Bool} {levels levels' : List Bool} (h : Toggles a levels b)
    (h' : Toggles b levels' c) : Toggles a (levels ++ levels') c := by
  induction h with
  | stay => exact h'
  | change hne _ ih => exact .change hne (ih h')

theorem Toggles.isChain {a b : Option Bool} {levels : List Bool} (h : Toggles a levels b) :
    levels.IsChain (· ≠ ·) := by
  induction h with
  | stay => exact .nil
  | change _ h ih =>
    cases h with
    | stay => exact .singleton _
    | change hne _ => exact .cons_cons (fun heq => hne (congrArg some heq)) ih

/-- A path that has been anywhere ends where it was last. -/
theorem Toggles.getLast? {a b : Option Bool} {levels : List Bool} (h : Toggles a levels b) :
    (a :: levels.map some).getLast? = some b := by
  induction h with
  | stay => rfl
  | change hne _ ih => simpa using ih

/-! ## Cores with levels -/

/-- The levels some notifications give a pin, oldest first. -/
def levelsOf (pin : PinKey) (notices : List Notice) : List Bool :=
  (notices.filter fun notice => notice.pin = pin).map fun notice => 0 != notice.value

/--
The pins of a core have levels, which nothing but the core itself and the lines from outside
changes, and a pin is raised whenever its level changes and not otherwise. Nothing is asked of a
reset, which clears the logs.
-/
structure Simavr.TogglesOnly (sim : Simavr ι) (level : PinKey → Core ι → Option Bool) : Prop where
  overwrite : ∀ pin (c : Core ι) pc state data sreg,
    level pin { c with pc := pc, state := state, data := data, sreg := sreg } = level pin c
  run : ∀ pin c, Toggles (level pin c) (levelsOf pin (sim.avrRun c).2) (level pin (sim.avrRun c).1)
  raise : ∀ pin driven value c, Toggles (level pin c)
    (levelsOf pin (sim.avrRaiseIrq driven value c).2) (level pin (sim.avrRaiseIrq driven value c).1)

/-! ## Logs -/

/-- The levels a log has recorded. -/
def PinLog.levels (log : PinLog) : List Bool := log.transitions.map Transition.level

/-- Every log is a path that ends at the level its pin has now. -/
structure Mcu.PinsToggle (level : PinKey → Core ι → Option Bool) (m : Mcu ι) : Prop where
  wired : m.PinsWired
  path : ∀ (pin : PinKey) (log : PinLog), m.pins[pin]? = some log →
    ∃ first, Toggles first log.levels (level pin m.avr)

namespace Mcu.PinsToggle

variable {level : PinKey → Core ι → Option Bool} {m : Mcu ι} (h : m.PinsToggle level)

include h

/-- Another core at the same levels. -/
theorem withCore {c : Core ι} (hc : ∀ pin, level pin c = level pin m.avr) :
    ({ m with avr := c } : Mcu ι).PinsToggle level := by
  refine ⟨h.wired, fun pin log hlog => ?_⟩
  obtain ⟨first, hpath⟩ := h.path pin log hlog
  exact ⟨first, (hc pin).symm ▸ hpath⟩

theorem absorb {r : Core ι × List Notice}
    (hr : ∀ pin, Toggles (level pin m.avr) (levelsOf pin r.2) (level pin r.1)) :
    (m.absorb r).PinsToggle level := by
  refine ⟨h.wired.absorb r, fun pin log hlog => ?_⟩
  rw [h.wired.pins_absorb, foldl_seePin_raised] at hlog
  obtain ⟨old, hold, rfl⟩ := Option.map_eq_some_iff.mp hlog
  obtain ⟨first, hpath⟩ := h.path pin old hold
  refine ⟨first, ?_⟩
  have hlevels : PinLog.levels ⟨old.transitions
      ++ (r.2.filter fun n => n.pin = pin).map Notice.transition⟩
        = old.levels ++ levelsOf pin r.2 := by
    simp [PinLog.levels, levelsOf, Notice.transition, Function.comp_def]
  rw [hlevels]
  exact hpath.append (hr pin)

/-- A reset clears the logs, and a path that has been nowhere ends where it is. -/
theorem reset (sim : Simavr ι) : (m.reset sim).PinsToggle level := by
  refine ⟨(h.wired.pins_reset sim default).1, fun pin log hlog => ?_⟩
  rw [m.pins_reset_eq] at hlog
  obtain ⟨old, -, rfl⟩ := Option.map_eq_some_iff.mp hlog
  exact ⟨_, .stay _⟩

theorem runLoop {sim : Simavr ι} (htog : sim.TogglesOnly level) (l : StepLoop ι)
    (hstart : ∀ pin, level pin l.start = level pin m.avr) : (m.runLoop sim l).PinsToggle level := by
  refine stepWhile_induction (P := Mcu.PinsToggle level) ?_ l.cap _ (h.withCore hstart)
  intro m' h'
  have habsorb := h'.absorb fun pin => htog.run pin m'.avr
  exact ⟨habsorb.wired, habsorb.path⟩

end Mcu.PinsToggle

/-! ## Sessions -/

/-- What an operation writes in the core before it steps does not change the levels. -/
theorem level_start {level : PinKey → Core ι → Option Bool} {sim : Simavr ι}
    (htog : sim.TogglesOnly level) {prog : Program} {c : Core ι} {op : Op} {l : StepLoop ι}
    (hl : prog.stepLoop c op = some l) (pin : PinKey) : level pin l.start = level pin c := by
  cases op with
  | call symbol cycleBudget =>
    simp only [Program.stepLoop] at hl
    split at hl
    · cases hl
    · cases hl
      exact htog.overwrite pin c _ _ _ c.sreg
  | run cycles =>
    cases hl
    exact htog.overwrite pin c c.pc .running c.data c.sreg
  | runUntil symbol cycleBudget =>
    simp only [Program.stepLoop] at hl
    split at hl
    · cases hl
    · cases hl
      exact htog.overwrite pin c c.pc .running c.data c.sreg
  | _ => cases hl

theorem level_coreAfter {level : PinKey → Core ι → Option Bool} {sim : Simavr ι}
    (htog : sim.TogglesOnly level) {prog : Program} {c : Core ι} {op : Op}
    (hl : prog.stepLoop c op = none) (hop : op ≠ .reset) (pin : PinKey) :
    level pin (coreAfter sim prog c op) = level pin c := by
  have hsetReg : ∀ (c : Core ι) (index value : UInt8),
      level pin (c.setReg index value) = level pin c := by
    intro c index value
    unfold Core.setReg
    split
    · exact htog.overwrite pin c c.pc c.state _ c.sreg
    · rfl
  unfold coreAfter
  rw [hl]
  cases op with
  | reset => exact absurd rfl hop
  | setReg index value => exact hsetReg c index value
  | setRegPair low value => exact (hsetReg _ (low + 1) _).trans (hsetReg c low _)
  | setData addr value =>
    show level pin (c.setByte prog.part.ramend addr value) = level pin c
    unfold Core.setByte
    split
    · exact htog.overwrite pin c c.pc c.state _ c.sreg
    · rfl
  | setSreg value => exact htog.overwrite pin c c.pc c.state _ _
  | _ => rfl

theorem Mcu.PinsToggle.exec {level : PinKey → Core ι → Option Bool} {m : Mcu ι}
    (h : m.PinsToggle level) {sim : Simavr ι} (htog : sim.TogglesOnly level) (op : Op) :
    (exec sim m op).2.PinsToggle level := by
  cases hl : m.prog.stepLoop m.avr op with
  | some l =>
    rw [exec_snd_of_stepLoop sim hl]
    exact h.runLoop htog l (level_start htog hl)
  | none =>
    by_cases hop : op = .reset
    · subst hop
      exact h.reset sim
    · obtain ⟨hpins, hhooks⟩ := pins_exec_of_none sim hl hop
      refine ⟨h.wired.congr hhooks fun pin => by rw [hpins], fun pin log hlog => ?_⟩
      rw [hpins] at hlog
      obtain ⟨first, hpath⟩ := h.path pin log hlog
      rw [exec_avr, level_coreAfter htog hl hop]
      exact ⟨first, hpath⟩

theorem Mcu.PinsToggle.command {level : PinKey → Core ι → Option Bool} {m m' : Mcu ι}
    (h : m.PinsToggle level) {sim : Simavr ι} (htog : sim.TogglesOnly level) {cmd : Command}
    (hexec : cmd.exec sim m = .ok m') : m'.PinsToggle level := by
  cases cmd with
  | op operation =>
    cases hexec
    exact h.exec htog operation
  | watch port bit =>
    obtain ⟨-, havr⟩ := watch_frame hexec
    refine ⟨(h.wired.pins_watch hexec default).1, fun pin log hlog => ?_⟩
    rw [(h.wired.pins_watch hexec pin).2] at hlog
    rw [havr]
    by_cases hpin : (port, bit) = pin
    · simp only [seePin, hpin, if_true, Option.some.injEq] at hlog
      cases hold : m.pins[pin]? with
      | none =>
        obtain rfl : PinLog.new = log := by simpa [hold] using hlog
        exact ⟨_, .stay _⟩
      | some old =>
        obtain rfl : old = log := by simpa [hold] using hlog
        exact h.path pin old hold
    · simp only [seePin, hpin, if_false] at hlog
      exact h.path pin log hlog
  | drive port bit level =>
    cases hexec
    unfold Mcu.drive
    split
    · exact h.absorb fun pin => htog.raise pin _ _ m.avr
    · exact h

theorem pinsToggle_session {level : PinKey → Core ι → Option Bool} {sim : Simavr ι}
    (htog : sim.TogglesOnly level) : ∀ {m m' : Mcu ι} {cmds : List Command},
      m.PinsToggle level → session sim m cmds = .ok m' → m'.PinsToggle level
  | m, m', [], h, hsession => by
    rw [session_nil] at hsession
    exact hsession ▸ h
  | m, m', cmd :: cmds, h, hsession => by
    obtain ⟨m₁, hexec, hrest⟩ := session_cons.mp hsession
    exact pinsToggle_session htog (h.command htog hexec) hrest

theorem pinsToggle_load {level : PinKey → Core ι → Option Bool} {sim : Simavr ι} {files : Files}
    {imagePath : String} {clockHz : UInt32} {m : Mcu ι}
    (h : Mcu.load sim files imagePath clockHz = .ok m) : m.PinsToggle level := by
  have hempty : ∀ (prog : Program) (c : Core ι),
      (Mcu.ofProgram prog clockHz c).PinsToggle level := by
    intro prog c
    refine ⟨(pinsOk_ofProgram prog clockHz c).wired, fun pin log hlog => ?_⟩
    have hnone : (Mcu.ofProgram prog clockHz c).pins[pin]? = none := Std.TreeMap.getElem?_emptyc
    rw [hnone] at hlog
    cases hlog
  rcases load_cases h with ⟨-, part, symbols, codeEnd, c, -, rfl⟩ | ⟨-, part, firmware, c, rfl⟩
  · exact hempty _ c
  · exact hempty _ c

/--
**Pin logs alternate, and their level is that of the pin.**

On a core that raises a pin when its level changes and not otherwise, after any session on a loaded
image, no two transitions in a row go to the same level; and a log with anything in it is at the
level that its pin has now.
-/
theorem pins_toggle {level : PinKey → Core ι → Option Bool} {sim : Simavr ι}
    (htog : sim.TogglesOnly level) {files : Files} {imagePath : String} {clockHz : UInt32}
    {m m' : Mcu ι} {cmds : List Command} (hload : Mcu.load sim files imagePath clockHz = .ok m)
    (hsession : session sim m cmds = .ok m') {pin : PinKey} {log : PinLog}
    (hlog : m'.pins[pin]? = some log) :
    log.levels.IsChain (· ≠ ·) ∧ (log.count ≠ 0 → level pin m'.avr = some log.level) := by
  obtain ⟨first, hpath⟩ := (pinsToggle_session htog (pinsToggle_load hload) hsession).path pin log
    hlog
  refine ⟨hpath.isChain, fun hcount => ?_⟩
  have hlast := hpath.getLast?
  cases hlevels : log.levels with
  | nil =>
    have hnil : log.transitions = [] := by simpa [PinLog.levels] using hlevels
    exact absurd (by rw [PinLog.count, hnil, List.length_nil]) hcount
  | cons next rest =>
    rw [hlevels, List.map_cons, List.getLast?_cons_cons, ← List.map_cons, ← hlevels,
      List.getLast?_map, PinLog.levels] at hlast
    obtain ⟨last, hlast', hlevel⟩ := Option.map_eq_some_iff.mp hlast
    rw [PinLog.level, ← List.getLast?_map, hlast', Option.getD_some, hlevel]

/-! ### A pin that toggles -/

/--
A core that flips PB5 at every instruction, and whose PB5 can be driven from outside. It raises the
line when the level changes.
-/
def toggler : Simavr Bool where
  avrMake := fun _ => some (Isa.atmega328p, { Isa.resetCore fun _ => 0 with rest := false })
  avrLoadFirmware := fun _ c => c
  avrRun := fun c =>
    ({ c with cycle := c.cycle + 1, rest := !c.rest },
      [⟨('B', 5), c.cycle + 1, if c.rest then 0 else 1⟩])
  avrReset := fun c => ({ c with cycle := 0, rest := false }, [⟨('B', 5), c.cycle, 0⟩])
  avrIoGetirq := fun pin => pin.1 == 'B'
  avrRaiseIrq := fun pin value c =>
    if pin = ('B', 5) ∧ c.rest ≠ (0 != value) then
      ({ c with rest := 0 != value }, [⟨pin, c.cycle, value⟩])
    else (c, [])

/-- PB5 has a level from the start, and the other pins never get one. -/
def togglerLevel (pin : PinKey) (c : Core Bool) : Option Bool :=
  if pin = ('B', 5) then some c.rest else none

theorem togglesOnly_toggler : toggler.TogglesOnly togglerLevel := by
  refine ⟨fun pin c pc state data sreg => rfl, fun pin c => ?_, fun pin driven value c => ?_⟩
  · by_cases hpin : pin = ('B', 5)
    · have hstep : Toggles (some c.rest) [!c.rest] (some !c.rest) :=
        .change (by simp) (.stay _)
      cases hrest : c.rest <;> simpa [togglerLevel, toggler, levelsOf, hpin, hrest] using hstep
    · have hnone : levelsOf pin (toggler.avrRun c).2 = [] := by
        simp [toggler, levelsOf, Ne.symm hpin]
      rw [hnone]
      simpa [togglerLevel, hpin] using Toggles.stay none
  · by_cases hraise : driven = ('B', 5) ∧ c.rest ≠ (0 != value)
    · obtain ⟨rfl, hne⟩ := hraise
      have hrun : toggler.avrRaiseIrq ('B', 5) value c
          = ({ c with rest := 0 != value }, [⟨('B', 5), c.cycle, value⟩]) := if_pos ⟨rfl, hne⟩
      rw [hrun]
      by_cases hpin : pin = ('B', 5)
      · subst hpin
        exact .change (fun heq => hne (Option.some.inj heq)) (.stay _)
      · simpa [togglerLevel, levelsOf, hpin, Ne.symm hpin] using Toggles.stay none
    · have hrun : toggler.avrRaiseIrq driven value c = (c, []) := if_neg hraise
      rw [hrun]
      exact .stay _

/-- `turns` on that core. -/
def togglerTurns : Mcu Bool :=
  Mcu.ofProgram Isa.turns.prog 16000000
    { Isa.resetCore fun _ => 0 with rest := false, frequency := 16000000 }

/-- Two instructions, driven high, and a third. -/
def togglerCommands : List Command :=
  [.watch 'B' 5, .op (.run 2), .drive 'B' 5 true, .op (.run 1)]

/-- High, low, high, low, the third of them from outside. -/
theorem pins_toggle_toggler :
    ∃ m log, Mcu.load toggler Isa.turnsFiles "app.elf" 16000000 = .ok togglerTurns
      ∧ session toggler togglerTurns togglerCommands = .ok m
      ∧ m.pins[('B', (5 : UInt8))]? = some log
      ∧ log.levels = [true, false, true, false] ∧ log.levels.IsChain (· ≠ ·)
      ∧ (log.count ≠ 0 → togglerLevel ('B', 5) m.avr = some log.level) := by
  have hload : Mcu.load toggler Isa.turnsFiles "app.elf" 16000000 = .ok togglerTurns := rfl
  have hok : ∃ m, session toggler togglerTurns togglerCommands = .ok m := ⟨_, rfl⟩
  obtain ⟨m, hm⟩ := hok
  have hseen : (pinHistory toggler togglerTurns.prog togglerTurns.avr togglerCommands).foldl
      (seePin ('B', 5)) none = some ⟨[⟨1, true⟩, ⟨2, false⟩, ⟨2, true⟩, ⟨3, false⟩]⟩ := by
    decide +kernel
  have hlog := (pins_session ('B', 5) (pinsOk_ofProgram _ _ _).wired hm).trans hseen
  exact ⟨m, _, hload, hm, hlog, rfl, pins_toggle togglesOnly_toggler hload hm hlog⟩

end Avrsim
