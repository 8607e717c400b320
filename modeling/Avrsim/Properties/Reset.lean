import Avrsim.Properties.TraceLog

/-!
# Visits and resets

`reset` puts the program counter and the cycle counter back but leaves the entries of the traced
functions alone. A visit that is open at that moment is closed by the first sample outside after
it, with the difference of two cycles that have nothing to do with each other.

* `VisitsKeepSide` — no visit spans a reset, and every cost is a true difference
* `visitsKeepSide_of_closed` — this holds in every run whose resets all find the log closed
-/

namespace Avrsim

open Infra Infra.Stretch

variable {ι : Type}

/-! ## The order of the samples -/

theorem epochs_map_sampled (n : Nat) : ∀ samples : List Sample,
    epochs n (samples.map .sampled) = samples.map fun s => (n, s)
  | [] => rfl
  | s :: samples => congrArg ((n, s) :: ·) (epochs_map_sampled n samples)

theorem resets_map_sampled (n : Nat) : ∀ samples : List Sample,
    resets n (samples.map .sampled) = n
  | [] => rfl
  | _ :: samples => resets_map_sampled n samples

theorem epochs_issued {op : Op} (hop : op ≠ .reset) (n : Nat) (pc : UInt32)
    (events : List Event) : epochs n (.issued op pc :: events) = epochs n events := by
  cases op <;> first | rfl | exact absurd rfl hop

theorem resets_issued {op : Op} (hop : op ≠ .reset) (n : Nat) (pc : UInt32)
    (events : List Event) : resets n (.issued op pc :: events) = resets n events := by
  cases op <;> first | rfl | exact absurd rfl hop

/--
Between two resets the cycles of the samples go up, and from `n` resets on there are only
samples numbered `n` or more.
-/
theorem epochs_sorted {sim : Simavr ι} (hmono : sim.NeverRewinds) (prog : Program) :
    ∀ (n : Nat) (c : Core ι) (ops : List Op),
      (epochs n (history sim prog c ops)).Pairwise
          (fun x y => x.1 = y.1 → epochCycle x ≤ epochCycle y)
        ∧ ∀ x ∈ epochs n (history sim prog c ops), n ≤ x.1 ∧ (x.1 = n → c.cycle ≤ epochCycle x)
  | _, _, [] => ⟨List.Pairwise.nil, fun _ hx => absurd hx List.not_mem_nil⟩
  | n, c, op :: ops => by
    by_cases hop : op = .reset
    · -- nothing before the next reset carries this number
      subst hop
      obtain ⟨hsorted, hbounds⟩ :=
        epochs_sorted hmono prog (n + 1) (coreAfter sim prog c .reset) ops
      refine ⟨hsorted, fun x hx => ?_⟩
      obtain ⟨hle, -⟩ := hbounds x hx
      exact ⟨by omega, fun heq => by omega⟩
    · obtain ⟨hhere, hrange, hstep⟩ :
          (samplesDuring sim prog c op).Pairwise _ ∧ _ ∧ _ := samplesDuring_sorted hmono hop
      obtain ⟨hsorted, hbounds⟩ := epochs_sorted hmono prog n (coreAfter sim prog c op) ops
      have hsplit : epochs n (history sim prog c (op :: ops))
          = (samplesDuring sim prog c op).map (fun s => (n, s))
            ++ epochs n (history sim prog (coreAfter sim prog c op) ops) := by
        rw [history, List.cons_append, epochs_issued hop, epochs_append, epochs_map_sampled,
          resets_map_sampled]
      rw [hsplit]
      constructor
      · refine List.pairwise_append.mpr ⟨?_, hsorted, ?_⟩
        · rw [List.pairwise_map]
          refine hhere.imp ?_
          intro x y hxy _
          exact hxy
        · rintro x hx y hy heq
          obtain ⟨s, hs, rfl⟩ := List.mem_map.mp hx
          exact UInt64.le_trans (hrange s hs).2 ((hbounds y hy).2 heq.symm)
      · intro x hx
        rcases List.mem_append.mp hx with hx | hx
        · obtain ⟨s, hs, rfl⟩ := List.mem_map.mp hx
          exact ⟨Nat.le_refl n, fun _ => (hrange s hs).1⟩
        · obtain ⟨hle, hcycle⟩ := hbounds x hx
          exact ⟨hle, fun heq => UInt64.le_trans hstep (hcycle heq)⟩

/-! ## The side of a stretch -/

/-- A stretch that began and ended, or is still open, after the same number of resets. -/
def OneSided (now : Nat) (s : Stretch (Nat × Sample)) : Prop :=
  s.enter.1 = (s.leave.map Prod.fst).getD now

theorem oneSided_observe {p : Nat × Sample → Bool} {was : Bool} {now : Nat}
    {log : List (Stretch (Nat × Sample))} (h : ∀ s ∈ log, OneSided now s) (s : Sample) :
    ∀ st ∈ (observe p (was, log) (now, s)).2, OneSided now st := by
  intro st hst
  simp only [observe] at hst
  split at hst
  · rcases List.mem_append.mp hst with hst | hst
    · exact h st hst
    · rw [List.mem_singleton.mp hst]
      rfl
  · split at hst
    · rcases mem_closeLast hst with hst | ⟨a, ha, rfl⟩
      · exact h st hst
      · have hopen : OneSided now ⟨a, none⟩ := h _ ha
        exact hopen
    · exact h st hst

/-- Samples do not change which side a stretch is on. -/
theorem oneSided_sampled (item : Traced) (symbol : String) (n : Nat) {events : List Event}
    (h : ∀ st ∈ item.opened symbol n events, OneSided (resets n events) st)
    (samples : List Sample) :
    ∀ st ∈ item.opened symbol n (events ++ samples.map .sampled),
      OneSided (resets n events) st := by
  induction samples using List.reverseRecOn with
  | nil => simpa using h
  | append_singleton samples s ih =>
    have hresets : resets n (events ++ samples.map .sampled) = resets n events := by
      rw [resets_append, resets_map_sampled]
    rw [List.map_append, ← List.append_assoc, List.map_cons, List.map_nil,
      opened_concat_sampled, hresets]
    exact oneSided_observe ih s

/-- An operation other than `reset` does not either. -/
theorem oneSided_issued (item : Traced) (symbol : String) (n : Nat) {events : List Event}
    (h : ∀ st ∈ item.opened symbol n events, OneSided (resets n events) st) {op : Op}
    (hop : op ≠ .reset) (pc : UInt32) :
    ∀ st ∈ item.opened symbol n (events ++ [.issued op pc]),
      OneSided (resets n (events ++ [.issued op pc])) st := by
  rw [resets_append, resets_issued hop]
  cases hc : (Event.issued op pc).clears symbol with
  | true =>
    rw [opened_concat_clears item n hc]
    exact fun st hst => absurd hst List.not_mem_nil
  | false =>
    rw [opened_concat_issued item n hc]
    exact h

/-! ## Runs with resets -/

/-- No visit of `symbol` is open. -/
def Mcu.Closed (m : Mcu ι) (symbol : String) : Prop :=
  ∀ item, m.traced[symbol]? = some item → ∀ v ∈ item.log.visits, v.complete = true

/--
After `ops`, done from where `symbol` was first traced, no visit of its log spans a reset: each
completed one is a stretch of samples that begins and ends after the same number of resets. And
every visit ends no earlier than it began, and cost what the two cycles differ by.
-/
def VisitsKeepSide (sim : Simavr ι) (m : Mcu ι) (symbol : String) (ops : List Op) : Prop :=
  ∃ item, (runOps sim (m.trace symbol) ops).traced[symbol]? = some item
    ∧ item.log.visits
        = ((Traced.new m.prog symbol m.avr.pc).opened symbol 0
            (history sim m.prog m.avr ops)).map (visitOf epochCycle)
    ∧ (∀ st ∈ (Traced.new m.prog symbol m.avr.pc).opened symbol 0 (history sim m.prog m.avr ops),
        ∀ b, st.leave = some b → st.enter.1 = b.1)
    ∧ ∀ v ∈ item.log.visits,
        v.entry ≤ v.exit ∧ v.cycles.toNat = v.exit.toNat - v.entry.toNat

/-- What the log of a machine says about the stretches behind it. -/
theorem closed_iff (sim : Simavr ι) {m : Mcu ι} {symbol : String}
    (hnew : m.traced[symbol]? = none) (ops : List Op) :
    (runOps sim (m.trace symbol) ops).Closed symbol
      ↔ ∀ st ∈ (Traced.new m.prog symbol m.avr.pc).opened symbol 0 (history sim m.prog m.avr ops),
          st.leave.isSome = true := by
  obtain ⟨item, hitem, -, hvisits⟩ := traced_runOps sim hnew ops
  constructor
  · intro h st hst
    rw [← complete_visitOf epochCycle]
    exact h item hitem _ (by rw [hvisits]; exact List.mem_map_of_mem hst)
  · intro h item' hitem' v hv
    rw [hitem] at hitem'
    cases hitem'
    rw [hvisits] at hv
    obtain ⟨st, hst, rfl⟩ := List.mem_map.mp hv
    rw [complete_visitOf]
    exact h st hst

/-- One operation, which must find the log closed if it is a reset. -/
theorem oneSided_exec (sim : Simavr ι) (prog : Program) (c : Core ι) (item : Traced)
    (symbol : String) {events : List Event} {op : Op}
    (h : ∀ st ∈ item.opened symbol 0 events, OneSided (resets 0 events) st)
    (hclosed : op = .reset → ∀ st ∈ item.opened symbol 0 events, st.leave.isSome = true) :
    ∀ st ∈ item.opened symbol 0 (events ++ history sim prog c [op]),
      OneSided (resets 0 (events ++ history sim prog c [op])) st := by
  have hevents : events ++ history sim prog c [op]
      = (events ++ [.issued op c.pc]) ++ (samplesDuring sim prog c op).map .sampled := by
    simp [history]
  rw [hevents, resets_append 0 (events ++ _), resets_map_sampled]
  refine oneSided_sampled item symbol 0 ?_ _
  by_cases hop : op = .reset
  · subst hop
    intro st hst
    rw [opened_concat_issued item 0 rfl] at hst
    obtain ⟨b, hb⟩ := Option.isSome_iff_exists.mp (hclosed rfl st hst)
    have hside := h st hst
    unfold OneSided at hside ⊢
    rw [hb] at hside ⊢
    exact hside
  · exact oneSided_issued item symbol 0 h hop c.pc

theorem oneSided_runOps (sim : Simavr ι) {m : Mcu ι} {symbol : String}
    (hnew : m.traced[symbol]? = none) (ops : List Op)
    (hclosed : ∀ before after, ops = before ++ .reset :: after →
      (runOps sim (m.trace symbol) before).Closed symbol) :
    ∀ st ∈ (Traced.new m.prog symbol m.avr.pc).opened symbol 0 (history sim m.prog m.avr ops),
      OneSided (resets 0 (history sim m.prog m.avr ops)) st := by
  induction ops using List.reverseRecOn with
  | nil => exact fun st hst => absurd hst List.not_mem_nil
  | append_singleton ops op ih =>
    rw [history_append]
    refine oneSided_exec sim m.prog _ _ symbol (ih ?_) ?_
    · rintro before after rfl
      exact hclosed before (after ++ [op]) (by simp)
    · rintro rfl
      exact (closed_iff sim hnew ops).mp (hclosed ops [] rfl)

/--
**No visit spans a reset, in every run whose resets all come when the function has no open
visit.**
-/
theorem visitsKeepSide_of_closed {sim : Simavr ι} (hmono : sim.NeverRewinds) {m : Mcu ι}
    {symbol : String} (hnew : m.traced[symbol]? = none) (ops : List Op)
    (hclosed : ∀ before after, ops = before ++ .reset :: after →
      (runOps sim (m.trace symbol) before).Closed symbol) :
    VisitsKeepSide sim m symbol ops := by
  obtain ⟨item, hitem, -, hvisits⟩ := traced_runOps sim hnew ops
  have hside := oneSided_runOps sim hnew ops hclosed
  have hsame : ∀ st ∈ (Traced.new m.prog symbol m.avr.pc).opened symbol 0
      (history sim m.prog m.avr ops), ∀ b, st.leave = some b → st.enter.1 = b.1 := by
    intro st hst b hb
    have h := hside st hst
    unfold OneSided at h
    rw [hb] at h
    exact h
  refine ⟨item, hitem, hvisits, hsame, ?_⟩
  intro v hv
  rw [hvisits] at hv
  obtain ⟨⟨a, b⟩, hst, rfl⟩ := List.mem_map.mp hv
  cases b with
  | none => exact ⟨UInt64.le_refl _, (Nat.sub_self _).symm⟩
  | some b =>
    have hle : epochCycle a ≤ epochCycle b :=
      rel_of_mem_openedFrom (epochs_sorted hmono m.prog 0 m.avr ops).1 hst rfl
        (hsame _ hst b rfl)
    exact ⟨hle, UInt64.toNat_sub_of_le _ _ hle⟩

/-- A reset between two visits. -/
theorem visitsKeepSide_of_closed_between :
    VisitsKeepSide Isa.steady Isa.turns "f" [.run 5, .reset, .run 12] := by
  refine visitsKeepSide_of_closed Isa.cycle_le_next_steady (by decide +kernel) _ ?_
  intro before after h
  -- the one reset comes after `run 5`
  obtain rfl : before = [.run 5] := by
    rcases before with _ | ⟨a, _ | ⟨b, _ | ⟨c, rest⟩⟩⟩ <;> simp_all
  intro item hitem v hv
  have hlog : (runOps Isa.steady (Isa.turns.trace "f") [.run 5]).traced["f"]?.map
      (fun item => item.log.visits) = some [⟨2, 5, 3, true⟩] := by decide +kernel
  rw [hitem, Option.map_some, Option.some.injEq] at hlog
  rw [hlog] at hv
  rw [List.mem_singleton.mp hv]

/--
A reset while `f` is running: the visit that was open at cycle 2 is closed at cycle 1 of the next
life of the machine, and costs `2 ^ 64 - 1` cycles.
-/
theorem not_visitsKeepSide_of_open :
    Isa.steady.NeverRewinds
      ∧ (∀ c, (Isa.steady.avrReset c).1.pc = 0 ∧ (Isa.steady.avrReset c).1.cycle = 0)
      ∧ ¬ VisitsKeepSide Isa.steady Isa.turns "f" [.run 3, .reset, .run 1] := by
  refine ⟨Isa.cycle_le_next_steady, fun _ => ⟨rfl, rfl⟩, ?_⟩
  rintro ⟨item, hitem, -, -, hcost⟩
  have hlog : (runOps Isa.steady (Isa.turns.trace "f") [.run 3, .reset, .run 1]).traced["f"]?.map
      (fun item => item.log.visits) = some [⟨2, 1, 0xFFFFFFFFFFFFFFFF, true⟩] := by
    decide +kernel
  rw [hitem, Option.map_some, Option.some.injEq] at hlog
  rw [hlog] at hcost
  obtain ⟨hle, -⟩ := hcost _ List.mem_cons_self
  exact absurd hle (by decide)

end Avrsim
