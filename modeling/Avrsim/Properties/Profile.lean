import Mathlib.Algebra.BigOperators.Option
import Avrsim.Infra.Crossings
import Avrsim.Properties.TotalCost

/-!
# Complete profiles

Traced costs are not only bounded by the time that passed: together with the time outside of all
traced functions they are that time, from where control first goes from one function to another to
where it last does so. What is left out at the beginning is the visit that was going on when the
functions were traced, and at the end the one that still is.

* `traced_traceAll` — tracing some functions one after the other
* `visits_of_fresh` — the log of a function that has just been traced
* `owned_occupies` — each sample is in one traced function, or in none
* `costs_add_up` — the account, for any run without a reset of a loaded image
-/

namespace Avrsim

open Infra Infra.Stretch

variable {ι : Type}

/-! ## Fresh logs -/

/-- Tracing some functions, one after the other. -/
def traceAll (symbols : List String) : List Op := symbols.map .trace

theorem avr_traceAll (sim : Simavr ι) : ∀ (m : Mcu ι) (symbols : List String),
    (runOps sim m (traceAll symbols)).avr = m.avr
  | _, [] => rfl
  | m, symbol :: symbols => by
    show (runOps sim (m.trace symbol) (traceAll symbols)).avr = m.avr
    rw [avr_traceAll sim _ symbols, Mcu.trace_avr]

theorem traced_traceAll (sim : Simavr ι) : ∀ (m : Mcu ι) (symbols : List String) (symbol : String),
    m.traced[symbol]? = none →
      (runOps sim m (traceAll symbols)).traced[symbol]?
        = if symbol ∈ symbols then some (Traced.new m.prog symbol m.avr.pc) else none
  | _, [], _, hnone => by simpa [traceAll] using hnone
  | m, first :: symbols, symbol, hnone => by
    show (runOps sim (m.trace first) (traceAll symbols)).traced[symbol]? = _
    by_cases hfirst : first = symbol
    · subst hfirst
      have hkept : ∀ (symbols : List String) (m' : Mcu ι) (item : Traced),
          m'.traced[first]? = some item →
            (runOps sim m' (traceAll symbols)).traced[first]? = some item := by
        intro symbols
        induction symbols with
        | nil => exact fun _ _ h => h
        | cons next symbols ih =>
          intro m' item h
          refine ih (m'.trace next) item ?_
          rw [traced_trace, h]
          simp
      rw [hkept symbols _ _ (traced_trace_new hnone), if_pos List.mem_cons_self]
    · have hnone' : (m.trace first).traced[symbol]? = none := by
        rw [traced_trace, if_neg hfirst, hnone]
      rw [traced_traceAll sim _ symbols symbol hnone', Mcu.trace_prog, Mcu.trace_avr]
      simp [Ne.symm hfirst]

/-- A log is cleared by an operation of the run. -/
theorem mem_of_clears (sim : Simavr ι) (prog : Program) {symbol : String} {e : Event}
    (hclears : e.clears symbol = true) : ∀ {ops : List Op} {c : Core ι},
      e ∈ history sim prog c ops → .clearTrace symbol ∈ ops
  | [], _, h => absurd h List.not_mem_nil
  | op :: ops, c, h => by
    rw [history, List.cons_append] at h
    rcases List.mem_cons.mp h with rfl | h
    · cases op with
      | clearTrace symbol' =>
        have heq : symbol' = symbol := by simpa [Event.clears] using hclears
        rw [heq]
        exact List.mem_cons_self
      | _ => cases hclears
    · rcases List.mem_append.mp h with h | h
      · obtain ⟨s, -, rfl⟩ := List.mem_map.mp h
        cases hclears
      · exact List.mem_cons_of_mem _ (mem_of_clears sim prog hclears h)

theorem samplesCleared_eq_zero (sim : Simavr ι) (prog : Program) (c : Core ι) {symbol : String}
    {ops : List Op} (h : .clearTrace symbol ∉ ops) :
    samplesCleared symbol (history sim prog c ops) = 0 := by
  have hall : ∀ e ∈ history sim prog c ops, (!e.clears symbol) = true := fun e he => by
    cases hc : e.clears symbol with
    | true => exact absurd (mem_of_clears sim prog hc he) h
    | false => rfl
  unfold samplesCleared
  rw [List.rdropWhile_eq_nil_iff.mpr hall]
  rfl

/-- The log of a function that has just been traced is its edge history from here on. -/
theorem visits_of_fresh (sim : Simavr ι) {m : Mcu ι} {symbol : String}
    (hfresh : m.traced[symbol]? = some (Traced.new m.prog symbol m.avr.pc)) {ops : List Op}
    (hclear : .clearTrace symbol ∉ ops) :
    ∃ item, (runOps sim m ops).traced[symbol]? = some item
      ∧ item.log.visits = edgeHistory (Traced.new m.prog symbol 0).contains m.avr.pc 0
          (samplesOf (history sim m.prog m.avr ops)) := by
  have hempty : (Traced.new m.prog symbol m.avr.pc).log.visits = [] := rfl
  have hview := (traceObserver sim symbol).view_runOps m ops
  obtain ⟨log, hfold, hlog⟩ :=
    foldl_seeTraced symbol m.prog hempty 0 (history sim m.prog m.avr ops)
  rw [map_opened _ rfl, samplesCleared_eq_zero sim m.prog m.avr hclear] at hlog
  exact ⟨_, hview.trans (hfresh ▸ hfold), hlog⟩

/-! ## Owners -/

namespace Program

variable (prog : Program) (symbols : List String)

/-- The function a sample is in, if it is in one of these. -/
def owner (s : Sample) : Option String := symbols.find? fun symbol => prog.occupies symbol s

/-- Outside of all of these functions. -/
def outside (pc : UInt32) : Bool :=
  symbols.all fun symbol => !(Traced.new prog symbol 0).contains pc

variable {prog symbols}

theorem owned_none (s : Sample) :
    owned (prog.owner symbols) none s = prog.outside symbols s.pc := by
  unfold owned owner outside
  rw [Bool.eq_iff_iff]
  simp [Program.occupies]

/-- Among functions that do not overlap the owner is the only one a sample can be in. -/
theorem owned_some {s : Sample} {symbol : String} (hmem : symbol ∈ symbols)
    (hunique : ∀ symbol' ∈ symbols, prog.occupies symbol s = true →
      prog.occupies symbol' s = true → symbol = symbol') :
    owned (prog.owner symbols) (some symbol) s = prog.occupies symbol s := by
  unfold owned
  rw [Bool.eq_iff_iff, decide_eq_true_eq]
  refine ⟨fun h => by simpa using List.find?_some h, fun hocc => ?_⟩
  cases hown : prog.owner symbols s with
  | none =>
    have hfree := List.find?_eq_none.mp hown symbol hmem
    exact absurd hocc hfree
  | some symbol' =>
    have hocc' : prog.occupies symbol' s = true := by simpa using List.find?_some hown
    rw [hunique symbol' (List.mem_of_find?_eq_some hown) hocc hocc']

end Program

/-! ## The account -/

/-- What the completed visits of an extent cost, when nothing has been cleared. -/
theorem spent_edgeHistory {extent : UInt32 → Bool} {p₀ : UInt32} {samples : List Sample}
    (hsorted : samples.Pairwise fun x y => x.cycle ≤ y.cycle) :
    ((edgeHistory extent p₀ 0 samples).map Visit.spent).sum
      = ((stretches (fun s : Sample => extent s.pc) (extent p₀) samples).map
          (cost Sample.clock)).sum := by
  have hopened : openedFrom (fun s : Sample => extent s.pc) (extent p₀) 0 samples
      = stretches (fun s : Sample => extent s.pc) (extent p₀) samples :=
    openedFrom_eq_stretches _ samples (Nat.zero_le _)
  unfold edgeHistory
  rw [← hopened, List.map_map]
  congr 1
  refine List.map_congr_left fun s hs => ?_
  obtain ⟨a, b⟩ := s
  cases b with
  | none => rfl
  | some b => exact UInt64.toNat_sub_of_le _ _ (rel_of_mem_openedFrom hsorted hs rfl)

/-- The cycles spent in one function, by the visits that have been completed. -/
def insideCycles (prog : Program) (pc : UInt32) (samples : List Sample) (symbol : String) : Nat :=
  ((edgeHistory (Traced.new prog symbol 0).contains pc 0 samples).map Visit.spent).sum

/-- The cycles spent outside of some functions, between leaving one and entering one. -/
def outsideCycles (prog : Program) (symbols : List String) (pc : UInt32) (samples : List Sample) :
    Nat :=
  ((edgeHistory (prog.outside symbols) pc 0 samples).map Visit.spent).sum

/-- The samples at which control has gone from one of some functions to another, or out of them. -/
def crossingsOf (prog : Program) (symbols : List String) (start : Sample) (samples : List Sample) :
    List Sample :=
  crossings (prog.owner symbols) (prog.owner symbols start) samples

/-- The exact costs of all logs, with the time outside. -/
theorem spent_add_outside {prog : Program} {symbols : List String} (hnodup : symbols.Nodup)
    (hunique : ∀ x : Sample, ∀ s ∈ symbols, ∀ s' ∈ symbols, prog.occupies s x = true →
      prog.occupies s' x = true → s = s')
    (start : Sample) {samples : List Sample}
    (hsorted : samples.Pairwise fun x y => x.cycle ≤ y.cycle) :
    (symbols.map (insideCycles prog start.pc samples)).sum
        + outsideCycles prog symbols start.pc samples
      = span Sample.clock (crossingsOf prog symbols start samples) := by
  have hsub : (crossingsOf prog symbols start samples).Pairwise
      fun x y => Sample.clock x ≤ Sample.clock y := hsorted.sublist (crossings_sublist _ _)
  have hmem : ∀ x ∈ samples, prog.owner symbols x ∈ Finset.insertNone symbols.toFinset := by
    intro x _
    rw [Finset.mem_insertNone]
    intro s hs
    exact List.mem_toFinset.mpr (List.mem_of_find?_eq_some hs)
  have hall := sum_cost_eq_elapsed Sample.clock (Finset.insertNone symbols.toFinset)
    (prog.owner symbols start) samples hmem
  rw [Finset.sum_insertNone, List.sum_toFinset _ hnodup] at hall
  have hsome : ∀ s ∈ symbols, owned (prog.owner symbols) (some s) = prog.occupies s :=
    fun s hs => funext fun x => Program.owned_some hs fun s' hs' => hunique x s hs s' hs'
  have hnone : owned (prog.owner symbols) none = fun s => prog.outside symbols s.pc :=
    funext Program.owned_none
  rw [← elapsed_eq_span Sample.clock hsub]
  refine Eq.trans ?_ hall
  rw [Nat.add_comm]
  refine congrArg₂ (· + ·) ?_ (congrArg List.sum (List.map_congr_left fun s hs => ?_))
  · have hstart : decide (prog.owner symbols start = none) = prog.outside symbols start.pc :=
      Program.owned_none start
    rw [hnone, hstart]
    exact spent_edgeHistory hsorted
  · have hstart : decide (prog.owner symbols start = some s) = prog.occupies s start :=
      congrFun (hsome s hs) start
    rw [hsome s hs, hstart]
    exact spent_edgeHistory hsorted

/-- What a traced function reports is its exact cost, when that is less than a whole turn. -/
theorem tracedCycles_of_visits {m : Mcu ι} {symbol : String} {item : Traced}
    (hitem : m.traced[symbol]? = some item) {visits : List Visit}
    (hvisits : item.log.visits = visits) (hlt : (visits.map Visit.spent).sum < 2 ^ 64) :
    m.tracedCycles symbol = (visits.map Visit.spent).sum := by
  subst hvisits
  unfold Mcu.tracedCycles
  rw [hitem]
  exact totalCycles_toNat hlt

/-- The counter cannot tell two samples a whole turn apart. -/
theorem span_lt (samples : List Sample) : span Sample.clock samples < 2 ^ 64 := by
  unfold span
  cases samples.getLast? with
  | none => simp
  | some s =>
    have hlt : s.clock < 2 ^ 64 := s.cycle.toNat_lt
    simp only [Option.map_some, Option.getD_some]
    omega

/-- The account, for any run of a loaded image in which the functions are traced at one point. -/
theorem account_of_run {sim : Simavr ι} {files : Files} {imagePath : String} {clockHz : UInt32}
    {m : Mcu ι} (hload : Mcu.load sim files imagePath clockHz = .ok m) (hfit : m.prog.FitsFlash)
    {symbols : List String} (hnodup : symbols.Nodup)
    (hinj : ∀ s ∈ symbols, ∀ s' ∈ symbols, m.address s = m.address s' → s = s')
    {before after : List Op} (hnone : ∀ s ∈ symbols, (runOps sim m before).traced[s]? = none)
    (hascends : Ascends (samplesOf (history sim m.prog (runOps sim m before).avr after)))
    (hclear : ∀ s ∈ symbols, .clearTrace s ∉ after) :
    (symbols.map (runOps sim m (before ++ traceAll symbols ++ after)).tracedCycles).sum
        + outsideCycles m.prog symbols (runOps sim m before).avr.pc
            (samplesOf (history sim m.prog (runOps sim m before).avr after))
      = span Sample.clock (crossingsOf m.prog symbols (runOps sim m before).avr.sample
          (samplesOf (history sim m.prog (runOps sim m before).avr after))) := by
  have hinj' : ∀ s ∈ symbols.toFinset, ∀ s' ∈ symbols.toFinset,
      m.prog.address s = m.prog.address s' → s = s' :=
    fun s hs s' hs' => hinj s (List.mem_toFinset.mp hs) s' (List.mem_toFinset.mp hs')
  have haccount := spent_add_outside hnodup
    (fun x s hs s' hs' => occupies_unique (loaded_of_load hload).1 hfit hinj' x
      (List.mem_toFinset.mpr hs) (List.mem_toFinset.mpr hs'))
    (runOps sim m before).avr.sample hascends.sorted
  rw [← haccount]
  refine congrArg (· + outsideCycles m.prog symbols _ _)
    (congrArg List.sum (List.map_congr_left fun s hs => ?_))
  -- no single cost exceeds the whole account, so none has wrapped
  have hlt : insideCycles m.prog (runOps sim m before).avr.pc
      (samplesOf (history sim m.prog (runOps sim m before).avr after)) s < 2 ^ 64 := by
    have hone := List.le_sum_of_mem (List.mem_map_of_mem
      (f := insideCycles m.prog (runOps sim m before).avr.pc
        (samplesOf (history sim m.prog (runOps sim m before).avr after))) hs)
    have hspan := span_lt (crossingsOf m.prog symbols (runOps sim m before).avr.sample
      (samplesOf (history sim m.prog (runOps sim m before).avr after)))
    rw [← haccount] at hspan
    exact Nat.lt_of_le_of_lt (Nat.le_trans hone (Nat.le_add_right _ _)) hspan
  have hprog : (runOps sim m (before ++ traceAll symbols)).prog = m.prog := runOps_prog sim m _
  have havr : (runOps sim m (before ++ traceAll symbols)).avr = (runOps sim m before).avr := by
    rw [runOps_append, avr_traceAll]
  have hfresh : (runOps sim m (before ++ traceAll symbols)).traced[s]?
      = some (Traced.new (runOps sim m (before ++ traceAll symbols)).prog s
          (runOps sim m (before ++ traceAll symbols)).avr.pc) := by
    rw [hprog, havr, runOps_append, traced_traceAll sim _ symbols s (hnone s hs), if_pos hs,
      runOps_prog]
  obtain ⟨item, hitem, hvisits⟩ := visits_of_fresh sim hfresh (hclear s hs)
  rw [hprog, havr] at hvisits
  rw [← runOps_append] at hitem
  exact tracedCycles_of_visits hitem hvisits hlt

/--
**The costs of traced functions and the time outside of them add up to the time that passed**, from
the first sample at which control has gone from one function to another, or in or out of all,
to the last. The run is any run of a loaded image that fits in flash, in which the functions are
traced where control is after `before`, and from then on the cycle counter never goes down and their
logs are not cleared.
-/
theorem costs_add_up {sim : Simavr ι} {files : Files} {imagePath : String} {clockHz : UInt32}
    {m : Mcu ι} (hload : Mcu.load sim files imagePath clockHz = .ok m) (hfit : m.prog.FitsFlash)
    {symbols : List String} (hnodup : symbols.Nodup)
    (hinj : ∀ s ∈ symbols, ∀ s' ∈ symbols, m.address s = m.address s' → s = s')
    {before after : List Op} (hnone : ∀ s ∈ symbols, (runOps sim m before).traced[s]? = none)
    (hascends : Ascends (samplesOf (history sim m.prog (runOps sim m before).avr after)))
    (hclear : ∀ s ∈ symbols, .clearTrace s ∉ after) :
    (symbols.map (runOps sim m (before ++ traceAll symbols ++ after)).tracedCycles).sum
        + outsideCycles m.prog symbols (runOps sim m before).avr.pc
            (samplesOf (history sim m.prog (runOps sim m before).avr after))
      = span Sample.clock (crossingsOf m.prog symbols (runOps sim m before).avr.sample
          (samplesOf (history sim m.prog (runOps sim m before).avr after))) :=
  account_of_run hload hfit hnodup hinj hnone hascends hclear

/-- `f` alone of two functions that take turns: 6 cycles inside, and 4 outside in between. -/
theorem costs_add_up_turns :
    (["f"].map
      (runOps Isa.simavr Isa.turns ([.run 1] ++ traceAll ["f"] ++ [.run 12])).tracedCycles).sum
        + outsideCycles Isa.turns.prog ["f"] (runOps Isa.simavr Isa.turns [.run 1]).avr.pc
            (samplesOf (history Isa.simavr Isa.turns.prog
              (runOps Isa.simavr Isa.turns [.run 1]).avr [.run 12])) = 10 := by
  have hload : Mcu.load Isa.simavr Isa.turnsFiles "app.elf" 16000000 = .ok Isa.turns :=
    Isa.load_eq_boot Isa.turnsFiles _ _ rfl
  have hfit : Isa.turns.prog.FitsFlash := by
    unfold Program.FitsFlash
    decide +kernel
  have hinj : ∀ s ∈ ["f"], ∀ s' ∈ ["f"], Isa.turns.address s = Isa.turns.address s' → s = s' := by
    decide +kernel
  have hascends : Ascends (samplesOf (history Isa.simavr Isa.turns.prog
      (runOps Isa.simavr Isa.turns [.run 1]).avr [.run 12])) := by
    unfold Ascends
    decide +kernel
  rw [costs_add_up hload hfit (by decide) hinj (fun _ _ => rfl) hascends (by decide)]
  decide +kernel

end Avrsim
