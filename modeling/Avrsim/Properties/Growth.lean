import Avrsim.Properties.PinLogs
import Avrsim.Spec.Observers

/-!
# What is recorded stays recorded

Between two resets nothing that has been recorded is lost, and no entry is rewritten: visits that
are complete stay at the head of their log, transitions at the head of theirs, marks only go down,
and what is registered stays registered with the extent or the range it has.

* `Traced.Grows`, `PinLog.Grows`, `StackWatch.Grows` — what may happen to one record
* `Mcu.Grows` — to all records of a machine
* `grows_session` — what happens over any session that clears nothing
-/

namespace Avrsim

open Infra.Loop

variable {ι : Type}

/-! ## One record -/

/-- The visit keeps its entry, and is not touched any more once it is complete. -/
structure Visit.Grows (v v' : Visit) : Prop where
  entry : v'.entry = v.entry
  complete : v.complete = true → v' = v

/-- Every visit keeps its index. -/
def Trace.Grows (t t' : Trace) : Prop :=
  ∀ (i : Nat) (v : Visit), t.visits[i]? = some v → ∃ v', t'.visits[i]? = some v' ∧ v.Grows v'

/-- The extent stays, and the log grows. -/
structure Traced.Grows (item item' : Traced) : Prop where
  begin : item'.begin = item.begin
  «end» : item'.end = item.end
  log : item.log.Grows item'.log

/-- The transitions stay at the head of the log. -/
def PinLog.Grows (log log' : PinLog) : Prop := log.transitions <+: log'.transitions

/-- The range stays, and once it has been entered the mark only goes down. -/
structure StackWatch.Grows (w w' : StackWatch) : Prop where
  range : w'.range = w.range
  entered : w.entered = true → w'.entered = true
  lowest : w.entered = true → w'.myLowest ≤ w.myLowest

theorem Visit.Grows.refl (v : Visit) : v.Grows v := ⟨rfl, fun _ => rfl⟩

theorem Visit.Grows.trans {a b c : Visit} (h : a.Grows b) (h' : b.Grows c) : a.Grows c := by
  refine ⟨h'.entry.trans h.entry, fun hc => ?_⟩
  have hab := h.complete hc
  exact (h'.complete (hab ▸ hc)).trans hab

theorem Trace.Grows.refl (t : Trace) : t.Grows t := fun _ v hv => ⟨v, hv, Visit.Grows.refl v⟩

theorem Trace.Grows.trans {a b c : Trace} (h : a.Grows b) (h' : b.Grows c) : a.Grows c := by
  intro i v hv
  obtain ⟨v', hv', hgrows⟩ := h i v hv
  obtain ⟨v'', hv'', hgrows'⟩ := h' i v' hv'
  exact ⟨v'', hv'', hgrows.trans hgrows'⟩

theorem Traced.Grows.refl (item : Traced) : item.Grows item := ⟨rfl, rfl, Trace.Grows.refl _⟩

theorem Traced.Grows.trans {a b c : Traced} (h : a.Grows b) (h' : b.Grows c) : a.Grows c :=
  ⟨h'.begin.trans h.begin, h'.end.trans h.end, h.log.trans h'.log⟩

theorem StackWatch.Grows.refl (w : StackWatch) : w.Grows w :=
  ⟨rfl, id, fun _ => UInt16.le_refl _⟩

theorem StackWatch.Grows.trans {a b c : StackWatch} (h : a.Grows b) (h' : b.Grows c) : a.Grows c :=
  ⟨h'.range.trans h.range, fun he => h'.entered (h.entered he),
    fun he => UInt16.le_trans (h'.lowest (h.entered he)) (h.lowest he)⟩

theorem Trace.grows_enter (cycle : UInt64) (t : Trace) : t.Grows (t.enter cycle) := by
  intro i v hv
  refine ⟨v, ?_, Visit.Grows.refl v⟩
  rw [Trace.enter_visits, List.getElem?_append_left (List.getElem?_eq_some_iff.mp hv).1, hv]

/-- Only an open visit at the end of the log is changed, and its entry is not. -/
theorem Trace.grows_leave (cycle : UInt64) (t : Trace) : t.Grows (t.leave cycle) := by
  rcases List.eq_nil_or_concat t.visits with h | ⟨init, last, h⟩
  · rw [Trace.leave_of_nil h]
    exact Trace.Grows.refl t
  · rw [List.concat_eq_append] at h
    cases hlast : last.complete with
    | true =>
      rw [Trace.leave_of_complete h hlast]
      exact Trace.Grows.refl t
    | false =>
      intro i v hv
      rw [Trace.leave_of_open h hlast]
      rw [h] at hv
      rcases Nat.lt_trichotomy i init.length with hi | rfl | hi
      · rw [List.getElem?_append_left hi] at hv ⊢
        exact ⟨v, hv, Visit.Grows.refl v⟩
      · simp only [List.getElem?_concat_length, Option.some.injEq] at hv ⊢
        subst hv
        exact ⟨_, rfl, rfl, fun hc => absurd hc (by simp [hlast])⟩
      · rw [List.getElem?_eq_none (by simp; omega)] at hv
        cases hv

/-- A sample opens a visit at the end, or completes the last one. -/
theorem Traced.grows_sample (pc : UInt32) (cycle : UInt64) (item : Traced) :
    item.Grows (item.sample pc cycle) := by
  refine ⟨rfl, rfl, ?_⟩
  unfold Traced.sample
  simp only
  split
  · exact Trace.grows_enter cycle item.log
  · split
    · exact Trace.grows_leave cycle item.log
    · exact Trace.Grows.refl _

theorem PinLog.grows_record (cycle : UInt64) (level : Bool) (log : PinLog) :
    log.Grows (log.record cycle level) := List.prefix_append _ _

theorem StackWatch.grows_sample (ptr : UInt16) (w : StackWatch) : w.Grows (w.sample ptr) := by
  refine ⟨StackWatch.range_sample ptr w, fun he => ?_, fun he => ?_⟩
  · unfold StackWatch.sample
    simp only
    split
    · exact he
    · rfl
  · unfold StackWatch.sample
    simp only [he]
    split
    · exact UInt16.le_refl _
    · simp only [Bool.not_true, Bool.false_or, decide_eq_true_eq]
      split
      · next hlt => exact UInt16.le_of_lt hlt
      · exact UInt16.le_refl _

/-! ## All records -/

/-- Nothing that `m` has recorded or registered is lost in `m'`. -/
structure Mcu.Grows (m m' : Mcu ι) : Prop where
  prog : m'.prog = m.prog
  traced : ∀ (symbol : String) (item : Traced), m.traced[symbol]? = some item →
    ∃ item', m'.traced[symbol]? = some item' ∧ item.Grows item'
  pins : ∀ (pin : PinKey) (log : PinLog), m.pins[pin]? = some log →
    ∃ log', m'.pins[pin]? = some log' ∧ log.Grows log'
  watches : ∀ w : StackWatch, w ∈ m.stackWatches → ∃ w' ∈ m'.stackWatches, w.Grows w'
  mark : m'.lowestStack ≤ m.lowestStack

namespace Mcu.Grows

theorem refl (m : Mcu ι) : m.Grows m :=
  ⟨rfl, fun _ _ h => ⟨_, h, Traced.Grows.refl _⟩, fun _ _ h => ⟨_, h, List.prefix_refl _⟩,
    fun _ h => ⟨_, h, StackWatch.Grows.refl _⟩, UInt16.le_refl _⟩

theorem trans {a b c : Mcu ι} (h : a.Grows b) (h' : b.Grows c) : a.Grows c := by
  refine ⟨h'.prog.trans h.prog, ?_, ?_, ?_, UInt16.le_trans h'.mark h.mark⟩
  · intro symbol item hitem
    obtain ⟨item', hitem', hgrows⟩ := h.traced symbol item hitem
    obtain ⟨item'', hitem'', hgrows'⟩ := h'.traced symbol item' hitem'
    exact ⟨item'', hitem'', hgrows.trans hgrows'⟩
  · intro pin log hlog
    obtain ⟨log', hlog', hgrows⟩ := h.pins pin log hlog
    obtain ⟨log'', hlog'', hgrows'⟩ := h'.pins pin log' hlog'
    exact ⟨log'', hlog'', List.IsPrefix.trans hgrows hgrows'⟩
  · intro w hw
    obtain ⟨w', hw', hgrows⟩ := h.watches w hw
    obtain ⟨w'', hw'', hgrows'⟩ := h'.watches w' hw'
    exact ⟨w'', hw'', hgrows.trans hgrows'⟩

/-- Another core, and the same records. -/
theorem withCore (m : Mcu ι) (c : Core ι) : m.Grows { m with avr := c } :=
  ⟨rfl, (refl m).traced, (refl m).pins, (refl m).watches, UInt16.le_refl _⟩

/-! ### One pass of the loop -/

theorem pins_onPinChanged (hooks : List PinHook) (notice : Notice) (pin : PinKey) :
    ∀ (pins : PinMap) (log : PinLog), pins[pin]? = some log →
      ∃ log', (onPinChanged hooks pins notice)[pin]? = some log' ∧ log.Grows log' := by
  unfold onPinChanged
  induction hooks with
  | nil => exact fun pins log hlog => ⟨log, hlog, List.prefix_refl _⟩
  | cons hook hooks ih =>
    intro pins log hlog
    rw [List.foldl_cons]
    split
    · by_cases hpin : hook.log = pin
      · obtain ⟨log', hlog', hgrows⟩ := ih
          (pins.modify hook.log (PinLog.record notice.cycle (0 != notice.value)))
          (log.record notice.cycle (0 != notice.value))
          (by
            rw [Std.TreeMap.getElem?_modify, if_pos (by simp [hpin]), hpin, hlog, Option.map_some])
        exact ⟨log', hlog', List.IsPrefix.trans (PinLog.grows_record _ _ log) hgrows⟩
      · refine ih _ log ?_
        rw [Std.TreeMap.getElem?_modify, if_neg (by simpa using hpin), hlog]
    · exact ih pins log hlog

theorem absorb (m : Mcu ι) (r : Core ι × List Notice) : m.Grows (m.absorb r) := by
  refine ⟨rfl, (refl m).traced, ?_, (refl m).watches, UInt16.le_refl _⟩
  intro pin log hlog
  show ∃ log', (r.2.foldl (onPinChanged m.hooks) m.pins)[pin]? = some log' ∧ log.Grows log'
  generalize m.pins = pins at hlog
  induction r.2 generalizing pins log with
  | nil => exact ⟨log, hlog, List.prefix_refl _⟩
  | cons notice notices ih =>
    obtain ⟨log', hlog', hgrows⟩ := pins_onPinChanged m.hooks notice pin pins log hlog
    obtain ⟨log'', hlog'', hgrows'⟩ := ih log' _ hlog'
    exact ⟨log'', hlog'', List.IsPrefix.trans hgrows hgrows'⟩

theorem sampleTraces (m : Mcu ι) : m.Grows m.sampleTraces := by
  refine ⟨rfl, ?_, (refl m).pins, (refl m).watches, UInt16.le_refl _⟩
  intro symbol item hitem
  refine ⟨_, ?_, Traced.grows_sample m.avr.pc m.avr.cycle item⟩
  rw [Mcu.sampleTraces, Std.TreeMap.getElem?_map, hitem, Option.map_some]

theorem sampleStack (m : Mcu ι) : m.Grows m.sampleStack := by
  refine ⟨rfl, (refl m).traced, (refl m).pins, ?_, ?_⟩
  · intro w hw
    exact ⟨_, List.mem_map_of_mem hw, StackWatch.grows_sample m.avr.sp w⟩
  · unfold Mcu.sampleStack
    simp only
    split
    · next hlt => exact UInt16.le_of_lt hlt
    · exact UInt16.le_refl _

/-- A pass adds to the records and takes nothing away. -/
theorem tick (sim : Simavr ι) (m : Mcu ι) : m.Grows (m.tick sim) :=
  ((absorb m (sim.avrRun m.avr)).trans (sampleStack _)).trans (sampleTraces _)

theorem runLoop (sim : Simavr ι) (l : StepLoop ι) (m : Mcu ι) : m.Grows (m.runLoop sim l) :=
  stepWhile_induction (P := m.Grows) (fun m' h => h.trans (tick sim m')) l.cap _
    (withCore m l.start)

/-! ### Registrations -/

theorem trace (m : Mcu ι) (symbol : String) : m.Grows (m.trace symbol) := by
  refine ⟨Mcu.trace_prog m symbol, fun symbol' item hitem => ⟨item, ?_, Traced.Grows.refl item⟩,
    ?_, ?_, ?_⟩
  · rw [traced_trace, hitem, Option.getD_some, ite_self]
  · unfold Mcu.trace
    split <;> exact (refl m).pins
  · unfold Mcu.trace
    split <;> exact (refl m).watches
  · unfold Mcu.trace
    split <;> exact UInt16.le_refl _

theorem watchStack (m : Mcu ι) (low high : UInt16) : m.Grows (m.watchStack low high) := by
  unfold Mcu.watchStack
  split
  · exact refl m
  · exact ⟨rfl, (refl m).traced, (refl m).pins,
      fun w hw => ⟨w, List.mem_append_left _ hw, StackWatch.Grows.refl w⟩, UInt16.le_refl _⟩

theorem watch {sim : Simavr ι} {port : Char} {bit : UInt8} {m m' : Mcu ι}
    (hw : m.watch sim port bit = .ok m') : m.Grows m' := by
  unfold Mcu.watch at hw
  split at hw
  · cases hw
    exact refl m
  · next hnew =>
    split at hw
    · cases hw
      refine ⟨rfl, (refl m).traced, ?_, (refl m).watches, UInt16.le_refl _⟩
      intro pin log hlog
      refine ⟨log, ?_, List.prefix_refl _⟩
      rw [Std.TreeMap.getElem?_insert, if_neg, hlog]
      intro hpin
      obtain rfl := Std.LawfulEqCmp.eq_of_compare hpin
      rw [Std.TreeMap.contains_eq_isSome_getElem?, hlog] at hnew
      exact hnew rfl
    · cases hw

end Mcu.Grows

/-! ## Sessions -/

/-- The commands that throw something recorded away. -/
def Op.clears : Op → Bool
  | .reset | .clearTrace _ | .clearStack _ _ | .resetStackWatermark => true
  | _ => false

def Command.clears : Command → Bool
  | .op operation => operation.clears
  | _ => false

theorem grows_exec (sim : Simavr ι) (m : Mcu ι) {op : Op} (h : op.clears = false) :
    m.Grows (exec sim m op).2 := by
  cases hl : m.prog.stepLoop m.avr op with
  | some l =>
    rw [exec_snd_of_stepLoop sim hl]
    exact Mcu.Grows.runLoop sim l m
  | none =>
    cases hs : op.steps with
    | true =>
      rw [exec_of_stepLoop_none sim hs hl]
      exact Mcu.Grows.refl m
    | false =>
      cases op with
      | trace symbol => exact Mcu.Grows.trace m symbol
      | watchStack low high => exact Mcu.Grows.watchStack m low high
      | setReg index value => exact Mcu.Grows.withCore m _
      | setRegPair low value => exact Mcu.Grows.withCore m _
      | setData addr value => exact Mcu.Grows.withCore m _
      | setSreg value => exact Mcu.Grows.withCore m _
      | reset | clearTrace | clearStack | resetStackWatermark => cases h
      | call | run | runUntil => cases hs

theorem grows_command {sim : Simavr ι} {m m' : Mcu ι} {cmd : Command} (h : cmd.clears = false)
    (hexec : cmd.exec sim m = .ok m') : m.Grows m' := by
  cases cmd with
  | op operation =>
    cases hexec
    exact grows_exec sim m h
  | watch port bit => exact Mcu.Grows.watch hexec
  | drive port bit level =>
    cases hexec
    unfold Mcu.drive
    split
    · exact Mcu.Grows.absorb m _
    · exact Mcu.Grows.refl m

theorem grows_of_session {sim : Simavr ι} : ∀ {m m' : Mcu ι} {cmds : List Command},
    session sim m cmds = .ok m' → (∀ cmd ∈ cmds, cmd.clears = false) → m.Grows m'
  | m, m', [], h, _ => by
    rw [session_nil] at h
    exact h ▸ Mcu.Grows.refl m
  | m, m', cmd :: cmds, h, hclears => by
    obtain ⟨m₁, hexec, hrest⟩ := session_cons.mp h
    have hstep := grows_command (hclears cmd List.mem_cons_self) hexec
    exact hstep.trans (grows_of_session hrest fun c hc => hclears c (List.mem_cons_of_mem _ hc))

/--
**What is recorded stays recorded.**

Over any commands none of which clears anything, every visit and every transition keeps its index,
a complete visit and a transition are never rewritten, the watermark and the marks of the watches
only go down, and what is registered stays registered with its extent or range. The core is any
core: nothing is assumed about what it does or which notifications it raises.
-/
theorem grows_session {sim : Simavr ι} {m m' : Mcu ι} {cmds : List Command}
    (h : session sim m cmds = .ok m') (hclears : ∀ cmd ∈ cmds, cmd.clears = false) :
    m.Grows m' := grows_of_session h hclears

/-- The three transitions of PB5 are still the first ones after another pin and a trace. -/
theorem grows_session_blinker :
    ∃ m m', session blinker (Mcu.ofProgram Isa.turns.prog 16000000 (Isa.resetCore fun _ => 0))
        [.watch 'B' 5, .op (.run 3)] = .ok m
      ∧ session blinker m [.op (.trace "f"), .op (.run 2), .watch 'B' 4, .drive 'B' 5 false]
        = .ok m'
      ∧ ∃ log, m'.pins[('B', (5 : UInt8))]? = some log
        ∧ [⟨0, true⟩, ⟨2, false⟩, ⟨2, true⟩] <+: log.transitions := by
  have hok : ∃ m m', session blinker
      (Mcu.ofProgram Isa.turns.prog 16000000 (Isa.resetCore fun _ => 0))
        [.watch 'B' 5, .op (.run 3)] = .ok m
      ∧ session blinker m [.op (.trace "f"), .op (.run 2), .watch 'B' 4, .drive 'B' 5 false]
        = .ok m' := ⟨_, _, rfl, rfl⟩
  obtain ⟨m, m', hm, hm'⟩ := hok
  have hlog := pins_session ('B', 5) (pinsOk_ofProgram _ _ _).wired hm
  have hlog' : m.pins[('B', (5 : UInt8))]? = some ⟨[⟨0, true⟩, ⟨2, false⟩, ⟨2, true⟩]⟩ :=
    hlog.trans (by decide +kernel)
  obtain ⟨log, h, hgrows⟩ := (grows_session hm' (by decide)).pins _ _ hlog'
  exact ⟨m, m', hm, hm', log, h, hgrows⟩

end Avrsim
