import Avrsim.Properties.Arrival
import Avrsim.Properties.Measuring
import Avrsim.Properties.TraceStatistics
import Avrsim.Properties.WellFormed

/-!
# What the tool prints

Every line the tool prints makes sense on its own: names are defined in the image, bounds are in
order, and no difference that is printed has wrapped.

* `Line.Sensible` — what a line promises
* `Step.Sensible` — what the command line promises about a step
* `run_output_sensible` — every line of every run
-/

namespace Avrsim.Tool

variable {ι : Type}

/-- What a line says by itself, for a machine that runs `prog`. -/
def Line.Sensible (prog : Program) : Line → Prop
  | .undefined _ symbol => prog.has symbol = false
  | .tracing symbol => prog.has symbol = true
  | .called call => prog.has call.symbol = true
  | .reached symbol cycles => prog.has symbol = true ∧ cycles < defaultBudget
  | .neverReached symbol budget => prog.has symbol = true ∧ budget = defaultBudget
  | .didNotReturn budget => budget = defaultBudget
  | .cost cycles clockHz _ => cycles < defaultBudget ∧ clockHz = defaultClockHz
  | .watchingStack low high => low ≤ high
  | .painted region => region.low ≤ region.high
  | .visitCosts shortest longest _ => shortest ≤ longest
  | .gap first second _ => second = first + 1 ∧ second ≤ maxGapsShown
  | .moreGaps count => 0 < count
  | .stack low high mark => low ≤ high ∧ ∀ x ∈ mark,
    low ≤ x.1 ∧ x.1 ≤ high ∧ x.2.toNat = high.toNat - x.1.toNat
  | .paint region untouched size => region.low ≤ region.high
    ∧ size.toNat = region.high.toNat - region.low.toNat + 1 ∧ untouched.toNat ≤ size.toNat
  | .deepest sp belowRamEnd => sp ≠ noStackMark
    ∧ (sp ≤ ramEnd → belowRamEnd.toNat = ramEnd.toNat - sp.toNat)
  | _ => True

/-! ## The command line -/

/-- A range that does not run backwards. -/
def Step.Sensible : Step → Prop
  | .watchStack region | .paintRegion region => region.low ≤ region.high
  | _ => True

theorem clockHz_command {sim : Simavr ι} {m m' : Mcu ι} {cmd : Command}
    (h : cmd.exec sim m = .ok m') : m'.clockHz = m.clockHz := by
  cases cmd with
  | op operation =>
    cases h
    exact clockHz_exec sim m operation
  | watch port bit =>
    have hwatch : m.watch sim port bit = .ok m' := h
    unfold Mcu.watch at hwatch
    split at hwatch
    · cases hwatch
      rfl
    · split at hwatch
      · cases hwatch
        rfl
      · cases hwatch
  | drive port bit level =>
    cases h
    unfold Mcu.drive
    split <;> rfl

theorem clockHz_session {sim : Simavr ι} : ∀ {m m' : Mcu ι} {cmds : List Command},
    session sim m cmds = .ok m' → m'.clockHz = m.clockHz
  | m, m', [], h => by
    rw [session_nil] at h
    rw [h]
  | m, m', cmd :: cmds, h => by
    obtain ⟨m₁, hexec, hrest⟩ := session_cons.mp h
    rw [clockHz_session hrest, clockHz_command hexec]

/-- An arrival is reported with part of the budget left. -/
theorem cycles_lt_of_returned {sim : Simavr ι} {m : Mcu ι} {symbol : String} {budget : UInt64} :
    ((m.call sim symbol budget).1.returned = true → (m.call sim symbol budget).1.cycles < budget)
      ∧ ((m.runUntil sim symbol budget).1.returned = true →
          (m.runUntil sim symbol budget).1.cycles < budget) := by
  have hloop : ∀ (stop : UInt32) (c : Core ι),
      ((untilLoop stop budget c).report sim stop budget).returned = true →
        ((untilLoop stop budget c).report sim stop budget).cycles < budget := by
    intro stop c hret
    rw [cycles_untilLoop]
    exact ((returned_untilLoop_iff sim stop budget c).mp hret).1.2
  by_cases hdef : m.address symbol = noAddress
  · rw [Mcu.call_of_undefined sim budget hdef, Mcu.runUntil_of_undefined sim budget hdef]
    constructor <;> exact fun h => absurd h (by simp)
  · rw [Mcu.call_eq sim budget hdef, Mcu.runUntil_eq sim budget hdef]
    exact ⟨hloop _ _, hloop _ _⟩

/-- What holds of the tool's session before and after every step. -/
structure Session.Sensible (prog : Program) (s : Session ι) : Prop where
  mcu : s.mcu.WellFormed
  loaded : s.mcu.prog = prog
  clock : s.mcu.clockHz = defaultClockHz
  ranges : ∀ range ∈ s.stackRanges, range.1 ≤ range.2
  painted : ∀ region ∈ s.painted, region.low ≤ region.high
  output : ∀ line ∈ s.output, line.Sensible prog

/-- Lines that make sense, printed after others that do. -/
theorem sensible_append {prog : Program} {lines lines' : List Line}
    (h : ∀ line ∈ lines, line.Sensible prog) (h' : ∀ line ∈ lines', line.Sensible prog) :
    ∀ line ∈ lines ++ lines', line.Sensible prog := by
  intro line hline
  rcases List.mem_append.mp hline with hline | hline
  · exact h line hline
  · exact h' line hline

theorem sensible_singleton {prog : Program} {line : Line} (h : line.Sensible prog) :
    ∀ line' ∈ [line], line'.Sensible prog := by
  intro line' hline
  rw [List.mem_singleton.mp hline]
  exact h

namespace Session.Sensible

variable {prog : Program} {s s' : Session ι} (h : s.Sensible prog) {sim : Simavr ι}

include h

theorem execute {step : Step} (hstep : step.Sensible)
    (hdef : ∀ symbol ∈ step.symbol?, prog.has symbol = true)
    (hexec : s.execute sim step = .ok s') : s'.Sensible prog := by
  have hsession := (execute_spec hexec).1
  obtain ⟨hmcu, hprog⟩ := wellFormed_session h.mcu hsession
  have hclock := (clockHz_session hsession).trans h.clock
  replace hprog := hprog.trans h.loaded
  cases step with
  | drivePin drive =>
    cases hexec
    exact ⟨hmcu, hprog, hclock, h.ranges, h.painted,
      sensible_append h.output (sensible_singleton trivial)⟩
  | freeRun cycles =>
    cases hexec
    exact ⟨hmcu, hprog, hclock, h.ranges, h.painted,
      sensible_append h.output (sensible_singleton trivial)⟩
  | watchPin drive =>
    obtain ⟨m, -, hexec⟩ := bind_eq_ok.mp hexec
    cases hexec
    exact ⟨hmcu, hprog, hclock, h.ranges, h.painted,
      sensible_append h.output (sensible_singleton trivial)⟩
  | traceSymbol symbol =>
    cases hexec
    exact ⟨hmcu, hprog, hclock, h.ranges, h.painted,
      sensible_append h.output (sensible_singleton (hdef symbol rfl))⟩
  | watchStack region =>
    cases hexec
    refine ⟨hmcu, hprog, hclock, ?_, h.painted, ?_⟩
    · intro range hrange
      rcases List.mem_append.mp hrange with hrange | hrange
      · exact h.ranges range hrange
      · rw [List.mem_singleton.mp hrange]
        exact hstep
    · exact sensible_append h.output (sensible_singleton hstep)
  | paintRegion region =>
    cases hexec
    refine ⟨hmcu, hprog, hclock, h.ranges, ?_, ?_⟩
    · intro region' hregion
      rcases List.mem_append.mp hregion with hregion | hregion
      · exact h.painted region' hregion
      · rw [List.mem_singleton.mp hregion]
        exact hstep
    · exact sensible_append h.output (sensible_singleton hstep)
  | runUntil symbol =>
    have hsymbol := hdef symbol rfl
    simp only [Session.execute] at hexec
    split at hexec
    · next hreturned =>
      cases hexec
      have hlt := cycles_lt_of_returned.2 hreturned
      exact ⟨hmcu, hprog, hclock, h.ranges, h.painted,
        sensible_append h.output (sensible_singleton ⟨hsymbol, hlt⟩)⟩
    · cases hexec
      exact ⟨hmcu, hprog, hclock, h.ranges, h.painted,
        sensible_append h.output (sensible_singleton ⟨hsymbol, rfl⟩)⟩
  | callSymbol call =>
    have hcall : Line.Sensible prog (.called call) := hdef call.symbol rfl
    have hcalled := sensible_append h.output (sensible_singleton hcall)
    simp only [Session.execute] at hexec
    split at hexec
    · cases hexec
      exact ⟨hmcu, hprog, hclock, h.ranges, h.painted,
        sensible_append hcalled (sensible_singleton rfl)⟩
    · next hreturned =>
      cases hexec
      have hlt := cycles_lt_of_returned.1 (by simpa using hreturned)
      exact ⟨hmcu, hprog, hclock, h.ranges, h.painted,
        sensible_append hcalled (sensible_singleton ⟨hlt, hclock⟩)⟩

end Session.Sensible

theorem Session.Sensible.executeAll {prog : Program} {sim : Simavr ι} : ∀ {steps : List Step}
    {s s' : Session ι}, s.Sensible prog → (∀ step ∈ steps, step.Sensible) →
      (∀ symbol ∈ steps.filterMap Step.symbol?, prog.has symbol = true) →
        s.executeAll sim steps = .ok s' → s'.Sensible prog
  | [], s, s', h, _, _, hall => by
    cases hall
    exact h
  | step :: steps, s, s', h, hsteps, hdef, hall => by
    obtain ⟨s₁, hstep, hrest⟩ := bind_eq_ok.mp hall
    have hfirst : ∀ symbol ∈ step.symbol?, prog.has symbol = true := fun symbol hsymbol =>
      hdef symbol (List.mem_filterMap.mpr ⟨step, List.mem_cons_self, hsymbol⟩)
    have hlater : ∀ symbol ∈ steps.filterMap Step.symbol?, prog.has symbol = true := by
      intro symbol hsymbol
      obtain ⟨step', hstep', hsome⟩ := List.mem_filterMap.mp hsymbol
      exact hdef symbol (List.mem_filterMap.mpr ⟨step', List.mem_cons_of_mem _ hstep', hsome⟩)
    have h₁ := h.execute (hsteps step List.mem_cons_self) hfirst hstep
    exact h₁.executeAll (fun step' hs => hsteps step' (List.mem_cons_of_mem _ hs)) hlater hrest

/-! ## The report -/

theorem sensible_gapLines (prog : Program) (count : Nat) (gap : Nat → Nat → UInt64) :
    ∀ line ∈ gapLines count gap, line.Sensible prog := by
  unfold gapLines
  refine sensible_append ?_ ?_
  · intro line hline
    obtain ⟨step, hstep, rfl⟩ := List.mem_map.mp hline
    have hrange := List.mem_range'_1.mp hstep
    simp only [Line.Sensible]
    omega
  · split
    · next hmore =>
      refine sensible_singleton ?_
      simp only [Line.Sensible]
      omega
    · intro line hline
      cases hline

theorem shortest_le_longest (t : Trace) : t.shortest ≤ t.longest := by
  by_cases hdone : t.done = []
  · obtain ⟨-, hshortest, -⟩ := statistics_of_nil hdone
    rw [hshortest]
    exact UInt64.zero_le
  · obtain ⟨⟨v, hv, hcost⟩, -⟩ := shortest_spec hdone
    rw [← hcost]
    exact (longest_spec hdone).2 v hv

theorem sensible_traceLines (prog : Program) (m : Mcu ι) (symbol : String) :
    ∀ line ∈ traceLines m symbol, line.Sensible prog := by
  unfold traceLines
  simp only
  split
  · intro line hline
    simp only [List.mem_cons, List.not_mem_nil, or_false] at hline
    rcases hline with rfl | rfl <;> trivial
  · intro line hline
    simp only [List.mem_cons] at hline
    rcases hline with rfl | rfl | hline
    · trivial
    · exact shortest_le_longest _
    · exact sensible_gapLines prog _ _ line hline

/-- A watch that has been entered has its mark in the range, so its depth has not wrapped. -/
theorem sensible_stackLines (prog : Program) {m : Mcu ι} (h : m.WellFormed)
    {range : UInt16 × UInt16} (hrange : range.1 ≤ range.2) :
    ∀ line ∈ stackLines m range, line.Sensible prog := by
  have hwatch : ∀ w : StackWatch, w.range = range → w.WellFormed →
      (Line.stack w.low w.high
        (if !w.entered then none else some (w.lowest, w.deepestBytes))).Sensible prog := by
    rintro w rfl hw
    refine ⟨hrange, ?_⟩
    cases he : w.entered with
    | false => simp
    | true =>
      intro x hx
      obtain rfl : (w.lowest, w.deepestBytes) = x := by simpa using hx
      have hbounds := hw.entered he
      have hlowest : w.lowest = w.myLowest := by simp [StackWatch.lowest, he]
      refine ⟨?_, ?_, hw.toNat_deepestBytes he⟩
      · rw [hlowest]
        exact hbounds.1
      · rw [hlowest]
        exact hbounds.2
  unfold stackLines
  refine sensible_singleton ?_
  cases hfind : m.stackWatches.find? fun w => w.range == range with
  | none =>
    have hnew : (StackWatch.new range.1 range.2).WellFormed :=
      StackWatch.wellFormed_of_unentered rfl rfl
    exact hwatch _ rfl hnew
  | some w =>
    refine hwatch w ?_ (h.watches w (List.mem_of_find?_eq_some hfind))
    simpa using List.find?_some hfind

/-- No more bytes hold the paint than there are. -/
theorem untouchedBytes_le (m : Mcu ι) {low high : UInt16} (hle : low ≤ high) (b : UInt8) :
    (m.untouchedBytes low high b).toNat ≤ high.toNat - low.toNat + 1 := by
  have hlength := (List.takeWhile_sublist (m.reads b) (l := addresses low high)).length_le
  rw [UInt16.le_iff_toNat_le] at hle
  rw [untouchedBytes_eq, UInt16.toNat_ofNat']
  refine Nat.le_trans (Nat.mod_le _ _) (Nat.le_trans hlength ?_)
  simp only [addresses, List.length_range']
  omega

theorem sensible_paintLines (prog : Program) (m : Mcu ι) {region : Region}
    (hregion : region.low ≤ region.high) :
    ∀ line ∈ paintLines m region, line.Sensible prog := by
  have hle := UInt16.le_iff_toNat_le.mp hregion
  have hhigh := region.high.toNat_lt
  have hsub : (region.high.toUInt32 - region.low.toUInt32).toNat
      = region.high.toNat - region.low.toNat := by
    rw [UInt32.toNat_sub_of_le]
    · simp
    · rw [UInt32.le_iff_toNat_le]
      simpa using hle
  have hsize : (region.high.toUInt32 - region.low.toUInt32 + 1).toNat
      = region.high.toNat - region.low.toNat + 1 := by
    rw [UInt32.toNat_add, hsub]
    exact Nat.mod_eq_of_lt (by simp; omega)
  unfold paintLines
  intro line hline
  rcases List.mem_cons.mp hline with rfl | hline
  · refine ⟨hregion, hsize, ?_⟩
    rw [hsize]
    exact untouchedBytes_le m hregion region.value
  · split at hline
    · rw [List.mem_singleton.mp hline]
      trivial
    · cases hline

theorem sensible_deepestLines (prog : Program) (m : Mcu ι) :
    ∀ line ∈ deepestLines m, line.Sensible prog := by
  unfold deepestLines
  split
  · next hmark =>
    refine sensible_singleton ⟨hmark.symm, fun hle => ?_⟩
    have hle' := UInt16.le_iff_toNat_le.mp hle
    rw [UInt32.toNat_sub_of_le]
    · simp
    · rw [UInt32.le_iff_toNat_le]
      simpa using hle'
  · intro line hline
    cases hline

theorem Session.Sensible.report {prog : Program} {s : Session ι} (h : s.Sensible prog) :
    ∀ line ∈ s.report, line.Sensible prog := by
  have hpins : ∀ line ∈ s.watched.flatMap (pinLines s.mcu), line.Sensible prog := by
    intro line hline
    obtain ⟨pin, -, hline⟩ := List.mem_flatMap.mp hline
    rcases List.mem_cons.mp hline with rfl | hline
    · trivial
    · exact sensible_gapLines prog _ _ line hline
  have htraces : ∀ line ∈ s.traced.flatMap (traceLines s.mcu), line.Sensible prog := by
    intro line hline
    obtain ⟨symbol, -, hline⟩ := List.mem_flatMap.mp hline
    exact sensible_traceLines prog s.mcu symbol line hline
  have hstacks : ∀ line ∈ s.stackRanges.flatMap (stackLines s.mcu), line.Sensible prog := by
    intro line hline
    obtain ⟨range, hrange, hline⟩ := List.mem_flatMap.mp hline
    exact sensible_stackLines prog h.mcu (h.ranges range hrange) line hline
  have hpaints : ∀ line ∈ s.painted.flatMap (paintLines s.mcu), line.Sensible prog := by
    intro line hline
    obtain ⟨region, hregion, hline⟩ := List.mem_flatMap.mp hline
    exact sensible_paintLines prog s.mcu (h.painted region hregion) line hline
  exact sensible_append (sensible_append (sensible_append (sensible_append hpins htraces) hstacks)
    hpaints) (sensible_deepestLines prog s.mcu)

end Avrsim.Tool
