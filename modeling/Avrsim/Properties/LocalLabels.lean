import Avrsim.Infra.Pieces
import Avrsim.Properties.Interchange
import Avrsim.Properties.Owners

/-!
# Functions cut by their labels

Every label ends the function before it, also one that stands inside of a function, and so a
function is traced up to its first label only. Nothing is lost by that: the traces of a function and
of the labels inside it have cost together what the function has in an image without these labels.

* `Mcu.timeIn` — the total of a log, with what its open visit has cost by now
* `Program.Stripped` — a program without some labels inside one of its functions
* `timeIn_eq_sum` — the function and its pieces, after any run
-/

namespace Avrsim

open Infra Infra.Stretch

variable {ι : Type}

/-! ## The time in a function -/

/-- What the visit that is still open has cost by now, if there is one. -/
def Trace.openCycles (t : Trace) (now : UInt64) : Nat :=
  match t.visits.getLast? with
  | some v => if v.complete then 0 else (now - v.entry).toNat
  | none => 0

/-- What the visits of a traced function have cost by now. -/
def Mcu.timeIn (m : Mcu ι) (symbol : String) : Nat :=
  m.tracedCycles symbol
    + (m.traced[symbol]?.map fun item => item.log.openCycles m.cycle).getD 0

/-- What one visit has cost by now. -/
def Visit.spentBy (now : UInt64) (v : Visit) : Nat :=
  if v.complete then v.cycles.toNat else (now - v.entry).toNat

/-- Only the last visit can be open, so that the total and the open visit are all visits. -/
theorem spent_add_openCycles {t : Trace} (now : UInt64)
    (h : t.visits.Pairwise fun v _ => v.complete = true) :
    t.spent + t.openCycles now = (t.visits.map (Visit.spentBy now)).sum := by
  unfold Trace.spent Trace.openCycles
  rcases List.eq_nil_or_concat t.visits with hnil | ⟨init, v, hv⟩
  · rw [hnil]
    rfl
  · rw [List.concat_eq_append] at hv
    rw [hv] at h ⊢
    have hinit : init.map (Visit.spentBy now) = init.map Visit.spent :=
      List.map_congr_left fun w hw => by
        have hw := (List.pairwise_append.mp h).2.2 w hw v List.mem_cons_self
        unfold Visit.spentBy Visit.spent
        rw [if_pos hw, if_pos hw]
    rw [List.map_append, List.map_append, List.sum_append, List.sum_append, hinit,
      List.getLast?_concat]
    unfold Visit.spentBy Visit.spent
    cases hc : v.complete <;> simp [hc]

/-- The visits of an extent that control is outside of at first, by now. -/
theorem spentBy_edgeHistory {extent : UInt32 → Bool} {p₀ : UInt32} (hout : extent p₀ = false)
    {samples : List Sample} {now : UInt64} (h : RunsTo Sample.clock now.toNat samples) :
    ((edgeHistory extent p₀ 0 samples).map (Visit.spentBy now)).sum
      = ((stretches (fun s : Sample => extent s.pc) false samples).map
          (costBy Sample.clock now.toNat)).sum := by
  have hopened : openedFrom (fun s : Sample => extent s.pc) (extent p₀) 0 samples
      = stretches (fun s : Sample => extent s.pc) false samples := by
    rw [openedFrom_eq_stretches _ samples (Nat.zero_le _), hout]
    rfl
  unfold edgeHistory
  rw [← hopened, List.map_map]
  congr 1
  refine List.map_congr_left fun s hs => ?_
  have henter : s.enter ∈ samples := by
    obtain ⟨i, -, hi⟩ := List.mem_filterMap.mp hs
    rw [if_pos (Nat.zero_le i)] at hi
    unfold openedAt at hi
    obtain ⟨a, ha, hi⟩ := Option.bind_eq_some_iff.mp hi
    split at hi
    · cases hi
      exact List.mem_of_getElem? ha
    · cases hi
  obtain ⟨a, b⟩ := s
  cases b with
  | none => exact UInt64.toNat_sub_of_le _ _ (h.le a henter)
  | some b => exact UInt64.toNat_sub_of_le _ _ (rel_of_mem_openedFrom h.sorted hs rfl)

/-- The counter is read last in the last sample of an operation, if it takes any. -/
theorem coreAfter_cycle_eq_last (sim : Simavr ι) (prog : Program) (c : Core ι) {op : Op}
    (hop : op ≠ .reset) :
    (coreAfter sim prog c op).cycle
      = ((samplesDuring sim prog c op).getLast?.map Sample.cycle).getD c.cycle := by
  cases hl : prog.stepLoop c op with
  | none =>
    rw [samplesDuring_of_none sim hl, coreAfter_cycle sim hl hop]
    rfl
  | some l =>
    rw [samplesDuring_of_some sim hl, coreAfter_of_some sim hl, ← stepLoop_start_cycle hl,
      List.getLast?_map, StepLoop.final, Infra.Loop.stepWhile_eq_getLast]
    show ((l.cores sim).getLast?.getD l.start).cycle = _
    cases (l.cores sim).getLast? <;> rfl

/-- And in the last sample of a run, if it has any. -/
theorem foldl_cycle_eq_last (sim : Simavr ι) (prog : Program) : ∀ {ops : List Op} (c : Core ι),
    .reset ∉ ops →
      (ops.foldl (coreAfter sim prog) c).cycle
        = ((samplesOf (history sim prog c ops)).getLast?.map Sample.cycle).getD c.cycle
  | [], _, _ => rfl
  | op :: ops, c, hreset => by
    have hop : op ≠ .reset := fun h => hreset (h ▸ List.mem_cons_self)
    have hrest := foldl_cycle_eq_last sim prog (coreAfter sim prog c op) fun h =>
      hreset (List.mem_cons_of_mem op h)
    rw [List.foldl_cons, hrest, coreAfter_cycle_eq_last sim prog c hop, history, samplesOf_issued,
      List.getLast?_append]
    cases (samplesOf (history sim prog (coreAfter sim prog c op) ops)).getLast? <;> rfl

/-- The cycles of the samples run up to those of the machine. -/
theorem runsTo_samples {sim : Simavr ι} (m : Mcu ι) {ops : List Op} (hreset : .reset ∉ ops)
    (hascends : Ascends (samplesOf (history sim m.prog m.avr ops))) :
    RunsTo Sample.clock (runOps sim m ops).cycle.toNat
      (samplesOf (history sim m.prog m.avr ops)) := by
  refine ⟨hascends.sorted, fun x hx => ?_⟩
  have hne := List.ne_nil_of_mem hx
  have hlast := hascends.sorted.rel_getLast_of_rel_getLast_getLast hx (UInt64.le_refl _)
  show x.cycle.toNat ≤ (runOps sim m ops).avr.cycle.toNat
  rw [runOps_avr, foldl_cycle_eq_last sim m.prog m.avr hreset, List.getLast?_eq_some_getLast hne]
  exact hlast

/-- The time in a function that has just been traced, from outside of it. -/
theorem timeIn_of_fresh {sim : Simavr ι} {m : Mcu ι} {symbol : String}
    (hfresh : m.traced[symbol]? = some (Traced.new m.prog symbol m.avr.pc))
    (hout : m.prog.occupies symbol m.avr.sample = false) {ops : List Op} (hreset : .reset ∉ ops)
    (hascends : Ascends (samplesOf (history sim m.prog m.avr ops)))
    (hclear : .clearTrace symbol ∉ ops) :
    (runOps sim m ops).timeIn symbol
      = ((stretches (m.prog.occupies symbol) false
          (samplesOf (history sim m.prog m.avr ops))).map
            (costBy Sample.clock (runOps sim m ops).cycle.toNat)).sum := by
  have hruns := runsTo_samples m hreset hascends
  obtain ⟨item, hitem, hvisits⟩ := visits_of_fresh sim hfresh hclear
  have hall : item.log.spent + item.log.openCycles (runOps sim m ops).cycle
      = ((stretches (m.prog.occupies symbol) false
          (samplesOf (history sim m.prog m.avr ops))).map
            (costBy Sample.clock (runOps sim m ops).cycle.toNat)).sum := by
    rw [spent_add_openCycles, hvisits]
    · exact spentBy_edgeHistory hout hruns
    · rw [hvisits]
      exact pairwise_complete _ _ (Nat.zero_le _)
  have hlt : item.log.spent < 2 ^ 64 := by
    have hle := occupiedBy_le hruns (p := m.prog.occupies symbol)
    rw [← sum_costBy hruns] at hle
    have hword := (runOps sim m ops).cycle.toNat_lt
    omega
  rw [← hall, Mcu.timeIn, Mcu.tracedCycles, hitem]
  exact congrArg (· + _) (totalCycles_toNat hlt)

/-! ## Extents, by the symbols past an address -/

/-- A function ends at a symbol past it, and no later than at any other. -/
theorem extentEnd_le_of_mem {prog : Program} (hload : prog.Loaded) {a b : UInt32}
    (hb : b ∈ prog.flashSymbols) (hlt : a < b) : prog.extentEnd a ≤ b := by
  unfold Program.extentEnd
  cases hfind : prog.flashSymbols.find? (fun b => decide (a < b)) with
  | none => exact absurd hlt (by simpa using List.find?_eq_none.mp hfind b hb)
  | some next => exact find?_lt_le hload.sorted hfind b hb hlt

/-- Where a function ends: at a symbol past it, or where the code does. -/
theorem extentEnd_cases (prog : Program) (a : UInt32) :
    (prog.extentEnd a ∈ prog.flashSymbols ∧ a < prog.extentEnd a)
      ∨ (∀ b ∈ prog.flashSymbols, ¬ a < b) ∧ prog.extentEnd a = prog.fallbackEnd := by
  unfold Program.extentEnd
  cases hfind : prog.flashSymbols.find? (fun b => decide (a < b)) with
  | none => exact Or.inr ⟨fun b hb => by simpa using List.find?_eq_none.mp hfind b hb, rfl⟩
  | some next =>
    exact Or.inl ⟨List.mem_of_find?_eq_some hfind, by simpa using List.find?_some hfind⟩

theorem occupies_iff {prog : Program} {symbol : String} {x : Sample} :
    prog.occupies symbol x = true
      ↔ prog.address symbol ≤ x.pc ∧ x.pc < prog.extentEnd (prog.address symbol) :=
  ⟨fun h => (contains_new h).2, fun h => contains_of_extent h.1 h.2⟩

/-! ## Local labels -/

/-- `stripped` is `prog` without some labels inside of the function `symbol`. -/
structure Program.Stripped (prog stripped : Program) (symbol : String) (labels : List String) :
    Prop where
  part : stripped.part = prog.part
  codeEnd : stripped.codeEnd = prog.codeEnd
  address : ∀ name ∉ labels, stripped.address name = prog.address name
  symbols : ∀ a, a ∈ prog.flashSymbols
    ↔ a ∈ stripped.flashSymbols ∨ ∃ label ∈ labels, prog.address label = a
  symbol_mem : prog.address symbol ∈ stripped.flashSymbols
  inside : ∀ label ∈ labels, prog.address symbol < prog.address label
    ∧ prog.address label < stripped.extentEnd (prog.address symbol)
  distinct : (labels.map prog.address).Nodup

namespace Program.Stripped

variable {prog stripped : Program} {symbol : String} {labels : List String}

section

variable (h : prog.Stripped stripped symbol labels)

include h

theorem notMem : symbol ∉ labels := fun hmem =>
  UInt32.lt_irrefl _ (h.inside symbol hmem).1

theorem fallbackEnd : stripped.fallbackEnd = prog.fallbackEnd := by
  unfold Program.fallbackEnd
  rw [h.part, h.codeEnd]

/-- The function itself and the labels, as the pieces of the function. -/
theorem piece {s : String} (hs : s ∈ symbol :: labels) :
    prog.address s ∈ prog.flashSymbols ∧ prog.address symbol ≤ prog.address s := by
  rcases List.mem_cons.mp hs with rfl | hs
  · exact ⟨(h.symbols _).mpr (Or.inl h.symbol_mem), UInt32.le_refl _⟩
  · exact ⟨(h.symbols _).mpr (Or.inr ⟨s, hs, rfl⟩), UInt32.le_of_lt (h.inside s hs).1⟩

/-- Two pieces at one address are the same. -/
theorem eq_of_address {s s' : String} (hs : s ∈ symbol :: labels) (hs' : s' ∈ symbol :: labels)
    (heq : prog.address s = prog.address s') : s = s' := by
  have hnodup : ((symbol :: labels).map prog.address).Nodup := by
    refine List.nodup_cons.mpr ⟨fun hmem => ?_, h.distinct⟩
    obtain ⟨label, hlabel, heq⟩ := List.mem_map.mp hmem
    have hlt := (h.inside label hlabel).1
    rw [heq] at hlt
    exact UInt32.lt_irrefl _ hlt
  exact List.inj_on_of_nodup_map hnodup hs hs' heq

end

/-- A piece ends within the function. -/
theorem extentEnd_le (h : prog.Stripped stripped symbol labels) (hload : prog.Loaded) {s : String}
    (hs : s ∈ symbol :: labels) :
    prog.extentEnd (prog.address s) ≤ stripped.extentEnd (prog.address symbol) := by
  have hlt : prog.address s < stripped.extentEnd (prog.address symbol)
      ∨ s = symbol := by
    rcases List.mem_cons.mp hs with rfl | hs
    · exact Or.inr rfl
    · exact Or.inl (h.inside s hs).2
  rcases extentEnd_cases stripped (prog.address symbol) with ⟨hmem, hpast⟩ | ⟨hnone, hend⟩
  · refine extentEnd_le_of_mem hload ((h.symbols _).mpr (Or.inl hmem)) ?_
    rcases hlt with hlt | rfl
    · exact hlt
    · exact hpast
  · rcases extentEnd_cases prog (prog.address s) with ⟨hmem, hpast⟩ | ⟨-, hend'⟩
    · -- the next symbol is a label, since the stripped program has none
      rcases (h.symbols _).mp hmem with hkept | ⟨label, hlabel, heq⟩
      · exact absurd (UInt32.lt_of_le_of_lt (h.piece hs).2 hpast) (hnone _ hkept)
      · rw [← heq]
        exact UInt32.le_of_lt (h.inside label hlabel).2
    · rw [hend, hend', h.fallbackEnd]
      exact UInt32.le_refl _

/-- What is inside of the function is inside of the last piece that begins by then. -/
theorem exists_piece (h : prog.Stripped stripped symbol labels) (hload' : stripped.Loaded)
    {x : Sample} (hx : stripped.occupies symbol x = true) :
    ∃ s ∈ symbol :: labels, prog.occupies s x = true := by
  rw [occupies_iff, h.address symbol h.notMem] at hx
  have hne : ((symbol :: labels).toFinset.filter fun s => prog.address s ≤ x.pc).Nonempty :=
    ⟨symbol, by simp [hx.1]⟩
  obtain ⟨s, hs, hmax⟩ := Finset.exists_max_image _ (fun s => (prog.address s).toNat) hne
  simp only [Finset.mem_filter, List.mem_toFinset] at hs hmax
  refine ⟨s, hs.1, occupies_iff.mpr ⟨hs.2, ?_⟩⟩
  rcases extentEnd_cases prog (prog.address s) with ⟨hmem, hpast⟩ | ⟨hnone, hend⟩
  · by_contra hle
    have hle := UInt32.not_lt.mp hle
    rcases (h.symbols _).mp hmem with hkept | ⟨label, hlabel, heq⟩
    · -- the function would end there
      have hlt := UInt32.lt_of_le_of_lt (h.piece hs.1).2 hpast
      have hend := extentEnd_le_of_mem hload' hkept hlt
      exact UInt32.lt_irrefl _ (UInt32.lt_of_lt_of_le hx.2 (UInt32.le_trans hend hle))
    · -- the label would be a later piece
      have hlow := hmax label ⟨List.mem_cons_of_mem _ hlabel, heq ▸ hle⟩
      rw [heq] at hlow
      exact absurd hpast (UInt32.not_lt.mpr (UInt32.le_iff_toNat_le.mpr hlow))
  · rcases extentEnd_cases stripped (prog.address symbol) with ⟨hmem, -⟩ | ⟨-, hend'⟩
    · have hlt := UInt32.lt_of_le_of_lt hs.2 hx.2
      exact absurd hlt (hnone _ ((h.symbols _).mpr (Or.inl hmem)))
    · rw [hend, ← h.fallbackEnd, ← hend']
      exact hx.2

/-- No sample is in two pieces. -/
theorem unique_piece (h : prog.Stripped stripped symbol labels) (hload : prog.Loaded) {x : Sample}
    {s s' : String} (hs : s ∈ symbol :: labels) (hs' : s' ∈ symbol :: labels)
    (hx : prog.occupies s x = true) (hx' : prog.occupies s' x = true) : s = s' := by
  rw [occupies_iff] at hx hx'
  by_contra hne
  rcases UInt32.lt_or_lt_of_ne fun heq => hne (h.eq_of_address hs hs' heq) with hlt | hlt
  · have hend := extentEnd_le_of_mem hload (h.piece hs').1 hlt
    exact UInt32.lt_irrefl _ (UInt32.lt_of_lt_of_le hx.2 (UInt32.le_trans hend hx'.1))
  · have hend := extentEnd_le_of_mem hload (h.piece hs).1 hlt
    exact UInt32.lt_irrefl _ (UInt32.lt_of_lt_of_le hx'.2 (UInt32.le_trans hend hx.1))

/-- **The labels cut the function into pieces.** -/
theorem cutInto (h : prog.Stripped stripped symbol labels) (hload : prog.Loaded)
    (hload' : stripped.Loaded) (x : Sample) :
    CutInto (stripped.occupies symbol) (symbol :: labels).toFinset prog.occupies x := by
  refine ⟨fun hx => ?_, fun s hs s' hs' => ?_, fun s hs hx => ?_⟩
  · obtain ⟨s, hs, hocc⟩ := h.exists_piece hload' hx
    exact ⟨s, List.mem_toFinset.mpr hs, hocc⟩
  · exact h.unique_piece hload (List.mem_toFinset.mp hs) (List.mem_toFinset.mp hs')
  · have hs := List.mem_toFinset.mp hs
    rw [occupies_iff] at hx ⊢
    rw [h.address symbol h.notMem]
    exact ⟨UInt32.le_trans (h.piece hs).2 hx.1,
      UInt32.lt_of_lt_of_le hx.2 (h.extentEnd_le hload hs)⟩

/-! ## The same run -/

/-- Where nothing asks for a label, the two programs run the same loops. -/
theorem stepLoop_eq (h : prog.Stripped stripped symbol labels) (htrap : stripped.trap = prog.trap)
    (c : Core ι) {op : Op} (hop : ∀ s ∈ op.symbol?, s ∉ labels) :
    stripped.stepLoop c op = prog.stepLoop c op := by
  have hcall : ∀ entry, stripped.enterCall entry c = prog.enterCall entry c := fun entry => by
    unfold Program.enterCall
    rw [h.part, htrap]
  cases op with
  | call name cycleBudget =>
    have haddr := h.address name (hop name rfl)
    simp only [Program.stepLoop, haddr, hcall, htrap]
  | runUntil name cycleBudget =>
    have haddr := h.address name (hop name rfl)
    simp only [Program.stepLoop, haddr]
  | _ => rfl

theorem coreAfter_eq (h : prog.Stripped stripped symbol labels) (htrap : stripped.trap = prog.trap)
    (sim : Simavr ι) (c : Core ι) {op : Op} (hop : ∀ s ∈ op.symbol?, s ∉ labels) :
    coreAfter sim stripped c op = coreAfter sim prog c op := by
  unfold coreAfter
  rw [h.stepLoop_eq htrap c hop, h.part]

/-- The two go through the same. -/
theorem run_same (h : prog.Stripped stripped symbol labels) (htrap : stripped.trap = prog.trap)
    (sim : Simavr ι) {ops : List Op} (c : Core ι)
    (hops : ∀ op ∈ ops, ∀ s ∈ op.symbol?, s ∉ labels) :
    ops.foldl (coreAfter sim stripped) c = ops.foldl (coreAfter sim prog) c
      ∧ history sim stripped c ops = history sim prog c ops := by
  induction ops generalizing c with
  | nil => exact ⟨rfl, rfl⟩
  | cons op ops ih =>
    have hop := hops op List.mem_cons_self
    obtain ⟨hcore, hhistory⟩ := ih (coreAfter sim prog c op) fun op hop =>
      hops op (List.mem_cons_of_mem _ hop)
    rw [List.foldl_cons, List.foldl_cons, history, history, h.coreAfter_eq htrap sim c hop, hcore,
      hhistory]
    unfold samplesDuring
    rw [h.stepLoop_eq htrap c hop]
    exact ⟨rfl, rfl⟩

end Program.Stripped

/-! ## The time in the pieces -/

/-- The time in some functions that are traced at one point of a run, from outside of all. -/
theorem timeIn_traceAll {sim : Simavr ι} (m : Mcu ι) {symbols : List String}
    {before after : List Op}
    (hnone : ∀ s ∈ symbols, (runOps sim m before).traced[s]? = none)
    (hout : ∀ s ∈ symbols, m.prog.occupies s (runOps sim m before).avr.sample = false)
    (hreset : .reset ∉ after)
    (hascends : Ascends (samplesOf (history sim m.prog (runOps sim m before).avr after)))
    (hclear : ∀ s ∈ symbols, .clearTrace s ∉ after) {s : String} (hs : s ∈ symbols) :
    (runOps sim m (before ++ traceAll symbols ++ after)).timeIn s
      = ((stretches (m.prog.occupies s) false
          (samplesOf (history sim m.prog (runOps sim m before).avr after))).map
            (costBy Sample.clock
              (after.foldl (coreAfter sim m.prog) (runOps sim m before).avr).cycle.toNat)).sum := by
  have hprog : (runOps sim m (before ++ traceAll symbols)).prog = m.prog := runOps_prog sim m _
  have havr : (runOps sim m (before ++ traceAll symbols)).avr = (runOps sim m before).avr := by
    rw [runOps_append, avr_traceAll]
  have hfresh : (runOps sim m (before ++ traceAll symbols)).traced[s]?
      = some (Traced.new (runOps sim m (before ++ traceAll symbols)).prog s
          (runOps sim m (before ++ traceAll symbols)).avr.pc) := by
    rw [hprog, havr, runOps_append, traced_traceAll sim _ symbols s (hnone s hs), if_pos hs,
      runOps_prog]
  have hout' := hout s hs
  rw [← hprog, ← havr] at hout'
  have hascends' : Ascends (samplesOf (history sim
      (runOps sim m (before ++ traceAll symbols)).prog
      (runOps sim m (before ++ traceAll symbols)).avr after)) := by
    rw [hprog, havr]
    exact hascends
  have htime := timeIn_of_fresh hfresh hout' hreset hascends' (hclear s hs)
  have hcycle : (runOps sim (runOps sim m (before ++ traceAll symbols)) after).cycle
      = (after.foldl (coreAfter sim m.prog) (runOps sim m before).avr).cycle := by
    show (runOps sim (runOps sim m (before ++ traceAll symbols)) after).avr.cycle = _
    rw [runOps_avr, hprog, havr]
  rw [hcycle, hprog, havr] at htime
  rw [runOps_append]
  exact htime

/--
**A function costs what its pieces do.**

One program is loaded twice, with the labels inside of a function and without them. In any run that
does not call or wait for a label, the function is traced in one machine, and in the other the
function, up to its first label, and every label. If control is outside of the function then, what
it has cost at any later point is what its pieces have cost together, open visits included, unless
there has been a reset since, the cycle counter has gone down or a log has been cleared.
-/
theorem timeIn_eq_sum {sim : Simavr ι} {files files' : Files} {path path' : String}
    {clockHz : UInt32} {m m' : Mcu ι} (hload : Mcu.load sim files path clockHz = .ok m)
    (hload' : Mcu.load sim files' path' clockHz = .ok m') (havr : m'.avr = m.avr)
    {symbol : String} {labels : List String} (h : m.prog.Stripped m'.prog symbol labels)
    {before after : List Op} (hops : ∀ op ∈ before ++ after, ∀ s ∈ op.symbol?, s ∉ labels)
    (hnone : ∀ s ∈ symbol :: labels, (runOps sim m before).traced[s]? = none)
    (hnone' : (runOps sim m' before).traced[symbol]? = none)
    (hout : m'.prog.occupies symbol (runOps sim m' before).avr.sample = false)
    (hreset : .reset ∉ after)
    (hascends : Ascends (samplesOf (history sim m.prog (runOps sim m before).avr after)))
    (hclear : ∀ s ∈ symbol :: labels, .clearTrace s ∉ after) :
    (runOps sim m' (before ++ traceAll [symbol] ++ after)).timeIn symbol
      = ((symbol :: labels).map
          (runOps sim m (before ++ traceAll (symbol :: labels) ++ after)).timeIn).sum := by
  have htrap : m'.prog.trap = m.prog.trap := by
    rw [trap_of_load hload, trap_of_load hload', h.codeEnd]
  have hbefore := (h.run_same htrap sim m.avr fun op hop =>
    hops op (List.mem_append_left after hop)).1
  have hafter := h.run_same htrap sim (runOps sim m before).avr fun op hop =>
    hops op (List.mem_append_right before hop)
  have havr' : (runOps sim m' before).avr = (runOps sim m before).avr := by
    rw [runOps_avr, runOps_avr, havr, hbefore]
  rw [havr'] at hout
  have hcut := h.cutInto (loaded_of_load hload).1 (loaded_of_load hload').1
  have hpieces : ∀ s ∈ symbol :: labels,
      m.prog.occupies s (runOps sim m before).avr.sample = false := fun s hs => by
    rw [Bool.eq_false_iff]
    intro hin
    rw [(hcut _).high s (List.mem_toFinset.mpr hs) hin] at hout
    cases hout
  have hprog : (runOps sim m before).prog = m.prog := runOps_prog sim m before
  have hruns := runsTo_samples (runOps sim m before) hreset (by rwa [hprog])
  have hcycle : (runOps sim (runOps sim m before) after).cycle
      = (after.foldl (coreAfter sim m.prog) (runOps sim m before).avr).cycle := by
    show (runOps sim (runOps sim m before) after).avr.cycle = _
    rw [runOps_avr, runOps_prog]
  rw [hcycle, hprog] at hruns
  have hascends' : Ascends (samplesOf (history sim m'.prog (runOps sim m' before).avr after)) := by
    rw [havr', hafter.2]
    exact hascends
  have hnodup : (symbol :: labels).Nodup :=
    List.nodup_cons.mpr ⟨h.notMem, h.distinct.of_map _⟩
  rw [timeIn_traceAll m' (by simpa using hnone') (by simpa [havr'] using hout) hreset hascends'
      (by simpa using hclear symbol List.mem_cons_self) List.mem_cons_self, havr', hafter.1,
    hafter.2, ← sum_sum_costBy hruns fun x _ => hcut x, List.sum_toFinset _ hnodup]
  refine congrArg List.sum (List.map_congr_left fun s hs => ?_)
  exact (timeIn_traceAll m hnone hpieces hreset hascends hclear hs).symm

/-- Two functions that take turns, with a label in the second. -/
def labelledTurns : Mcu Unit :=
  Isa.boot [0x0000, 0x0000, 0x0000, 0xCFFC] [⟨"main", 0⟩, ⟨"f", 4⟩, ⟨"loop", 6⟩]

/-- The files it is loaded from. -/
def labelledFiles : Files :=
  { Isa.turnsFiles with
    elfReadFirmware := fun _ => some (Isa.firmware [0x0000, 0x0000, 0x0000, 0xCFFC]
      [⟨"main", 0⟩, ⟨"f", 4⟩, ⟨"loop", 6⟩]) }

theorem stripped_turns : labelledTurns.prog.Stripped Isa.turns.prog "f" ["loop"] where
  part := rfl
  codeEnd := rfl
  address := fun name hname => by
    have hloop : name ≠ "loop" := by simpa using hname
    show (Program.ofElf _ _).address name = (Program.ofElf _ _).address name
    rw [address_ofElf, address_ofElf]
    simp [Isa.firmware, List.find?_cons, hloop]
  symbols := fun a => by
    have hlabelled : labelledTurns.prog.flashSymbols = [0, 4, 6] := by decide +kernel
    have hstripped : Isa.turns.prog.flashSymbols = [0, 4] := by decide +kernel
    have hloop : labelledTurns.prog.address "loop" = 6 := by decide +kernel
    rw [hlabelled, hstripped]
    simp [hloop, or_assoc, eq_comm]
  symbol_mem := by decide +kernel
  inside := by decide +kernel
  distinct := by decide +kernel

/-- Two visits to `f` and one that has just begun: 1 cycle each up to the label, 2 from there. -/
theorem timeIn_eq_sum_turns :
    (["f", "loop"].map (runOps Isa.steady labelledTurns
      ([.run 1] ++ traceAll ["f", "loop"] ++ [.run 12])).timeIn).sum = 7 := by
  have hload : Mcu.load Isa.steady labelledFiles "app.elf" 16000000 = .ok labelledTurns :=
    Isa.load_eq_boot labelledFiles _ _ rfl
  have hload' : Mcu.load Isa.steady Isa.turnsFiles "app.elf" 16000000 = .ok Isa.turns :=
    Isa.load_eq_boot Isa.turnsFiles _ _ rfl
  have hops : ∀ op ∈ [Op.run 1] ++ [.run 12], ∀ s ∈ op.symbol?, s ∉ ["loop"] := by
    simp [Op.symbol?]
  have hascends : Ascends (samplesOf (history Isa.steady labelledTurns.prog
      (runOps Isa.steady labelledTurns [.run 1]).avr [.run 12])) :=
    ascends_of_neverRewinds Isa.cycle_le_next_steady _ _ (by decide)
  rw [← timeIn_eq_sum hload hload' rfl stripped_turns hops (fun _ _ => rfl) rfl (by decide +kernel)
    (by decide) hascends (by decide)]
  decide +kernel

end Avrsim
