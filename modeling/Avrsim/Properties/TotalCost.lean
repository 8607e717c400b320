import Avrsim.Infra.Occupancy
import Avrsim.Isa
import Avrsim.Properties.Extents
import Avrsim.Properties.TraceLog

/-!
# Total costs

The costs of traced functions never add up to more than the time that passed. A visit is a
stretch of samples inside the extent of its function, the extents are disjoint, and so the
advance of the cycle counter from one sample to the next is paid by one function at most.

* `totalCycles_toNat` — what `totalCycles` adds up, when it does not wrap
* `Ascends` — the cycle counter never goes down in a run
* `spent_le_occupied` — a log and the samples inside the extent
* `totalCycles_le_elapsed` — the bound, for any run without a reset of a loaded image
-/

namespace Avrsim

open Infra Infra.Stretch

variable {ι : Type}

/-! ## Totals -/

/-- What a visit adds to the total. -/
def Visit.spent (v : Visit) : Nat := if v.complete then v.cycles.toNat else 0

/-- The cost of all completed visits. -/
def Trace.spent (t : Trace) : Nat := (t.visits.map Visit.spent).sum

theorem foldl_totalCycles : ∀ (visits : List Visit) (total : UInt64),
    (visits.foldl (fun total v => if v.complete then total + v.cycles else total) total).toNat
      = (total.toNat + (visits.map Visit.spent).sum) % 2 ^ 64
  | [], total => by
    rw [List.foldl_nil, List.map_nil, List.sum_nil, Nat.add_zero,
      Nat.mod_eq_of_lt total.toNat_lt]
  | v :: visits, total => by
    rw [List.foldl_cons, foldl_totalCycles visits, List.map_cons, List.sum_cons, ← Nat.add_assoc]
    unfold Visit.spent
    split
    · rw [UInt64.toNat_add, Nat.mod_add_mod]
    · rfl

/-- **Short of a wrap `totalCycles` is the exact sum of the completed visits.** -/
theorem totalCycles_toNat {t : Trace} (h : t.spent < 2 ^ 64) : t.totalCycles.toNat = t.spent := by
  unfold Trace.totalCycles
  rw [foldl_totalCycles, UInt64.toNat_zero, Nat.zero_add]
  exact Nat.mod_eq_of_lt h

/-! ## The samples of a run without a reset -/

theorem samplesOf_issued (op : Op) (pc : UInt32) (samples : List Sample) (events : List Event) :
    samplesOf (.issued op pc :: samples.map .sampled ++ events) = samples ++ samplesOf events := by
  rw [List.cons_append]
  show samplesOf (samples.map .sampled ++ events) = _
  rw [samplesOf_append]
  congr 1
  induction samples with
  | nil => rfl
  | cons s samples ih => exact congrArg (s :: ·) ih

/-- The cycles of the samples go up, from the first core to the last. -/
theorem samples_sorted {sim : Simavr ι} (hmono : sim.NeverRewinds) (prog : Program) :
    ∀ {ops : List Op} (c : Core ι), .reset ∉ ops →
      (samplesOf (history sim prog c ops)).Pairwise (fun x y => x.cycle ≤ y.cycle)
        ∧ (∀ x ∈ samplesOf (history sim prog c ops),
            c.cycle ≤ x.cycle ∧ x.cycle ≤ (ops.foldl (coreAfter sim prog) c).cycle)
        ∧ c.cycle ≤ (ops.foldl (coreAfter sim prog) c).cycle
  | [], c, _ => ⟨List.Pairwise.nil, fun _ hx => absurd hx List.not_mem_nil, UInt64.le_refl _⟩
  | op :: ops, c, hreset => by
    have hop : op ≠ .reset := fun h => hreset (h ▸ List.mem_cons_self)
    obtain ⟨hhere, hrange, hstep⟩ :
        (samplesDuring sim prog c op).Pairwise _ ∧ _ ∧ _ := samplesDuring_sorted hmono hop
    obtain ⟨hrest, hbounds, hlast⟩ :=
      samples_sorted hmono prog (coreAfter sim prog c op)
        fun h => hreset (List.mem_cons_of_mem _ h)
    rw [history, samplesOf_issued, List.foldl_cons]
    refine ⟨?_, ?_, UInt64.le_trans hstep hlast⟩
    · refine List.pairwise_append.mpr ⟨hhere, hrest, fun x hx y hy => ?_⟩
      exact UInt64.le_trans (hrange x hx).2 (hbounds y hy).1
    · intro x hx
      rcases List.mem_append.mp hx with hx | hx
      · exact ⟨(hrange x hx).1, UInt64.le_trans (hrange x hx).2 hlast⟩
      · exact ⟨UInt64.le_trans hstep (hbounds x hx).1, (hbounds x hx).2⟩

/-- The counter never goes down in a run: no sample reads less than the one before it. -/
def Ascends (samples : List Sample) : Prop := samples.IsChain fun x y => x.cycle ≤ y.cycle

theorem Ascends.sorted {samples : List Sample} (h : Ascends samples) :
    samples.Pairwise fun x y => x.cycle ≤ y.cycle := by
  let R : Sample → Sample → Prop := fun x y => x.cycle ≤ y.cycle
  have htrans : Trans R R R := ⟨fun hxy hyz => UInt64.le_trans hxy hyz⟩
  exact List.IsChain.pairwise (R := R) h

/-- So it is in any run without a reset, when the core never takes it back. -/
theorem ascends_of_neverRewinds {sim : Simavr ι} (hmono : sim.NeverRewinds) (prog : Program)
    (c : Core ι) {ops : List Op} (hreset : .reset ∉ ops) :
    Ascends (samplesOf (history sim prog c ops)) :=
  (samples_sorted hmono prog c hreset).1.isChain

/-! ## One log -/

/-- The clock of the samples. -/
def Sample.clock (s : Sample) : Nat := s.cycle.toNat

/-- A log costs no more than the advance of the counter while the function is occupied. -/
theorem spent_edgeHistory_le {extent : UInt32 → Bool} {p₀ : UInt32} {cleared : Nat}
    {samples : List Sample} (hle : cleared ≤ samples.length)
    (hsorted : samples.Pairwise fun x y => x.cycle ≤ y.cycle) :
    ((edgeHistory extent p₀ cleared samples).map Visit.spent).sum
      ≤ occupied Sample.clock (fun s => extent s.pc) samples := by
  have hcost : (edgeHistory extent p₀ cleared samples).map Visit.spent
      = (openedFrom (fun s : Sample => extent s.pc) (extent p₀) cleared samples).map
          (cost Sample.clock) := by
    unfold edgeHistory
    rw [List.map_map]
    refine List.map_congr_left fun s hs => ?_
    obtain ⟨a, b⟩ := s
    cases b with
    | none => rfl
    | some b => exact UInt64.toNat_sub_of_le _ _ (rel_of_mem_openedFrom hsorted hs rfl)
  rw [hcost]
  exact sum_cost_openedFrom_le Sample.clock (extent p₀) hle

/-- An entry that appears during some events was made by one of them. -/
theorem foldl_seeTraced_none (symbol : String) (prog : Program) {item : Traced} :
    ∀ {events : List Event}, events.foldl (seeTraced symbol prog) none = some item →
      ∃ before pc after, events = before ++ .issued (.trace symbol) pc :: after
        ∧ after.foldl (seeTraced symbol prog) (some (Traced.new prog symbol pc)) = some item
  | [], h => by cases h
  | e :: events, h => by
    by_cases htrace : ∃ pc, e = .issued (.trace symbol) pc
    · obtain ⟨pc, rfl⟩ := htrace
      rw [List.foldl_cons] at h
      have hnew : seeTraced symbol prog none (.issued (.trace symbol) pc)
          = some (Traced.new prog symbol pc) := if_pos rfl
      rw [hnew] at h
      exact ⟨[], pc, events, rfl, h⟩
    · have hnone : seeTraced symbol prog none e = none := by
        cases e with
        | sampled s => rfl
        | issued op pc =>
          cases op with
          | trace symbol' => exact if_neg fun heq => htrace ⟨pc, by rw [heq]⟩
          | clearTrace symbol' =>
            show (if symbol' = symbol then _ else _) = none
            split <;> rfl
          | _ => rfl
      rw [List.foldl_cons, hnone] at h
      obtain ⟨before, pc, after, rfl, hafter⟩ := foldl_seeTraced_none symbol prog h
      exact ⟨e :: before, pc, after, rfl, hafter⟩

/-- The extent of a symbol, as the samples see it. -/
def Program.occupies (prog : Program) (symbol : String) (s : Sample) : Bool :=
  (Traced.new prog symbol 0).contains s.pc

/-- What a symbol recorded since it was not traced is bounded by the samples since then. -/
theorem spent_le_occupied {sim : Simavr ι} (hmono : sim.NeverRewinds) {m : Mcu ι}
    {symbol : String} (hnone : m.traced[symbol]? = none) {ops : List Op} (hreset : .reset ∉ ops)
    {item : Traced} (hitem : (runOps sim m ops).traced[symbol]? = some item) :
    item.contains = (Traced.new m.prog symbol 0).contains
      ∧ item.log.spent
          ≤ occupied Sample.clock (m.prog.occupies symbol)
              (samplesOf (history sim m.prog m.avr ops)) := by
  have hview : (runOps sim m ops).traced[symbol]?
      = (history sim m.prog m.avr ops).foldl (seeTraced symbol m.prog) m.traced[symbol]? :=
    (traceObserver sim symbol).view_runOps m ops
  rw [hnone, hitem] at hview
  obtain ⟨before, pc, after, hsplit, hafter⟩ := foldl_seeTraced_none symbol m.prog hview.symm
  have hempty : (Traced.new m.prog symbol pc).log.visits = [] := rfl
  obtain ⟨log, hfold, hlog⟩ := foldl_seeTraced symbol m.prog hempty 0 after
  rw [hfold] at hafter
  cases hafter
  refine ⟨rfl, ?_⟩
  have hsamples : samplesOf (history sim m.prog m.avr ops)
      = samplesOf before ++ samplesOf after := by
    rw [hsplit, samplesOf_append]
    rfl
  have hle : samplesCleared symbol after ≤ (samplesOf after).length := by
    rw [← map_snd_epochs 0, List.length_map]
    exact samplesCleared_le symbol 0 after
  have hsorted := (samples_sorted hmono m.prog m.avr hreset).1
  rw [hsamples] at hsorted ⊢
  refine Nat.le_trans ?_ (occupied_append_le Sample.clock (samplesOf after) (samplesOf before))
  show ((log.visits).map Visit.spent).sum ≤ _
  have hin : (Traced.new m.prog symbol pc).inside = (Traced.new m.prog symbol pc).contains pc := rfl
  rw [hlog, map_opened _ hin]
  exact spent_edgeHistory_le hle (List.pairwise_append.mp hsorted).2.1

/-! ## Several functions -/

/-- `totalCycles` of the log of a symbol, 0 when it has none. -/
def Mcu.tracedCycles (m : Mcu ι) (symbol : String) : Nat :=
  (m.traced[symbol]?.map fun item => item.log.totalCycles.toNat).getD 0

/-- At most one of some symbols with different addresses is occupied at a sample. -/
theorem occupies_unique {prog : Program} (hload : prog.Loaded) (hfit : prog.FitsFlash)
    {symbols : Finset String}
    (hinj : ∀ s ∈ symbols, ∀ s' ∈ symbols, prog.address s = prog.address s' → s = s')
    (x : Sample) {s s' : String} (hs : s ∈ symbols) (hs' : s' ∈ symbols)
    (h : prog.occupies s x = true) (h' : prog.occupies s' x = true) : s = s' := by
  by_contra hne
  exact disjoint_extents hload hfit (fun heq => hne (hinj s hs s' hs' heq)) h h'

/--
What several functions record from the machine `m₁` to the machine `m₂`, when the samples
between the two are `samples`.
-/
structure CostsShared (symbols : Finset String) (m₁ m₂ : Mcu ι) (samples : List Sample) :
    Prop where
  disjoint : ∀ s ∈ symbols, ∀ s' ∈ symbols, s ≠ s' → ∀ item item',
    m₂.traced[s]? = some item → m₂.traced[s']? = some item' →
    ∀ pc, ¬ (item.contains pc = true ∧ item'.contains pc = true)
  atMostOne : ∀ x ∈ samples, ∀ s ∈ symbols, ∀ s' ∈ symbols, ∀ item item',
    m₂.traced[s]? = some item → m₂.traced[s']? = some item' →
    item.contains x.pc = true → item'.contains x.pc = true → s = s'
  exact : ∀ s ∈ symbols, ∀ item, m₂.traced[s]? = some item →
    item.log.totalCycles.toNat = item.log.spent
  forward : m₁.cycle ≤ m₂.cycle
  bounded : ∑ s ∈ symbols, m₂.tracedCycles s ≤ m₂.cycle.toNat - m₁.cycle.toNat

/-- The bound from a machine on which none of the symbols is traced. -/
theorem costsShared {sim : Simavr ι} (hmono : sim.NeverRewinds) {m : Mcu ι}
    (hload : m.prog.Loaded) (hfit : m.prog.FitsFlash) {symbols : Finset String}
    (hinj : ∀ s ∈ symbols, ∀ s' ∈ symbols, m.prog.address s = m.prog.address s' → s = s')
    (hnone : ∀ s ∈ symbols, m.traced[s]? = none) {ops : List Op} (hreset : .reset ∉ ops) :
    CostsShared symbols m (runOps sim m ops) (samplesOf (history sim m.prog m.avr ops)) := by
  obtain ⟨hsorted, hbounds, hforward⟩ := samples_sorted hmono m.prog m.avr hreset
  have hentry : ∀ s ∈ symbols, ∀ item, (runOps sim m ops).traced[s]? = some item →
      item.contains = (Traced.new m.prog s 0).contains
        ∧ item.log.spent ≤ occupied Sample.clock (m.prog.occupies s)
            (samplesOf (history sim m.prog m.avr ops)) :=
    fun s hs item hitem => spent_le_occupied hmono (hnone s hs) hreset hitem
  have hcycle : (runOps sim m ops).cycle
      = (ops.foldl (coreAfter sim m.prog) m.avr).cycle := by
    show (runOps sim m ops).avr.cycle = _
    rw [runOps_avr]
  have helapsed : elapsed Sample.clock (samplesOf (history sim m.prog m.avr ops))
      ≤ (runOps sim m ops).cycle.toNat - m.cycle.toNat := by
    rw [hcycle]
    exact elapsed_le Sample.clock hsorted hbounds
  have hshared : ∑ s ∈ symbols, occupied Sample.clock (m.prog.occupies s)
      (samplesOf (history sim m.prog m.avr ops))
        ≤ elapsed Sample.clock (samplesOf (history sim m.prog m.avr ops)) :=
    sum_occupied_le_elapsed Sample.clock symbols _ fun x _ s hs s' hs' h h' =>
      occupies_unique hload hfit hinj x hs hs' h h'
  have hword := (runOps sim m ops).cycle.toNat_lt
  have hexact : ∀ s ∈ symbols, ∀ item, (runOps sim m ops).traced[s]? = some item →
      item.log.totalCycles.toNat = item.log.spent := by
    intro s hs item hitem
    have hone : occupied Sample.clock (m.prog.occupies s)
        (samplesOf (history sim m.prog m.avr ops))
          ≤ ∑ s ∈ symbols, occupied Sample.clock (m.prog.occupies s)
              (samplesOf (history sim m.prog m.avr ops)) :=
      Finset.single_le_sum (f := fun s => occupied Sample.clock (m.prog.occupies s) _)
        (fun _ _ => Nat.zero_le _) hs
    have hspent := (hentry s hs item hitem).2
    exact totalCycles_toNat (by omega)
  refine ⟨?_, ?_, hexact, ?_, ?_⟩
  · rintro s hs s' hs' hne item item' hitem hitem' pc ⟨h, h'⟩
    rw [(hentry s hs item hitem).1] at h
    rw [(hentry s' hs' item' hitem').1] at h'
    exact disjoint_extents hload hfit (fun heq => hne (hinj s hs s' hs' heq)) h h'
  · intro x _ s hs s' hs' item item' hitem hitem' h h'
    rw [(hentry s hs item hitem).1] at h
    rw [(hentry s' hs' item' hitem').1] at h'
    exact occupies_unique hload hfit hinj x hs hs' h h'
  · rw [hcycle]
    exact hforward
  · refine Nat.le_trans (Finset.sum_le_sum fun s hs => ?_) (Nat.le_trans hshared helapsed)
    unfold Mcu.tracedCycles
    cases hitem : (runOps sim m ops).traced[s]? with
    | none => exact Nat.zero_le _
    | some item =>
      rw [Option.map_some, Option.getD_some, hexact s hs item hitem]
      exact (hentry s hs item hitem).2

/--
**Traced costs never add up to more than the time that passed.** In a run of a loaded image that
fits in flash, let `before` be the part up to where the first of some symbols with pairwise
different addresses is traced, and `after` the rest. Then the extents derived for them are
disjoint, at most one of them is occupied at any sample, every total is exact, and the sum of
the totals is at most what the cycle counter advanced since.
-/
theorem totalCycles_le_elapsed {sim : Simavr ι} (hmono : sim.NeverRewinds) {files : Files}
    {imagePath : String} {clockHz : UInt32} {m : Mcu ι}
    (hload : Mcu.load sim files imagePath clockHz = .ok m) (hfit : m.prog.FitsFlash)
    {symbols : Finset String}
    (hinj : ∀ s ∈ symbols, ∀ s' ∈ symbols, m.address s = m.address s' → s = s')
    {before after : List Op} (hreset : .reset ∉ before ++ after)
    (hnone : ∀ s ∈ symbols, (runOps sim m before).traced[s]? = none) :
    CostsShared symbols (runOps sim m before) (runOps sim m (before ++ after))
      (samplesOf (history sim m.prog (runOps sim m before).avr after)) := by
  have hprog : (runOps sim m before).prog = m.prog := runOps_prog sim m before
  have hafter : .reset ∉ after := fun h => hreset (List.mem_append_right _ h)
  rw [runOps_append, ← hprog]
  exact costsShared hmono (hprog ▸ (loaded_of_load hload).1) (hprog ▸ hfit) (hprog ▸ hinj) hnone
    hafter

/-- Two functions that take turns: 6 and 6 of 12 cycles. -/
theorem totalCycles_le_elapsed_loop :
    CostsShared {"main", "f"} Isa.turns
        (runOps Isa.steady Isa.turns [.trace "main", .trace "f", .run 12])
        (samplesOf (history Isa.steady Isa.turns.prog Isa.turns.avr
          [.trace "main", .trace "f", .run 12]))
      ∧ (runOps Isa.steady Isa.turns [.trace "main", .trace "f", .run 12]).tracedCycles "f" = 6 := by
  have hload : Mcu.load Isa.steady Isa.turnsFiles "app.elf" 16000000 = .ok Isa.turns :=
    Isa.load_eq_boot Isa.turnsFiles _ _ rfl
  have hinj : ∀ s ∈ ({"main", "f"} : Finset String), ∀ s' ∈ ({"main", "f"} : Finset String),
      Isa.turns.address s = Isa.turns.address s' → s = s' := by decide +kernel
  have hreset : .reset ∉ [] ++ [Op.trace "main", .trace "f", .run 12] := by decide
  have hfit : Isa.turns.prog.FitsFlash := by
    unfold Program.FitsFlash
    decide +kernel
  exact ⟨totalCycles_le_elapsed Isa.cycle_le_next_steady hload hfit hinj hreset fun _ _ => rfl,
    by decide +kernel⟩

end Avrsim
