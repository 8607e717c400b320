import Mathlib.Data.List.DropRight
import Avrsim.Infra.Stretch
import Avrsim.Isa
import Avrsim.Spec.Observers

/-!
# Visit logs

The log of a traced function is its edge history: one visit for each stretch of samples inside
the function that opens after the function was first traced and after the log was last cleared.

* `foldl_seeTraced` — the entry of a symbol after any events, each sample carrying the number
  of resets before it
* `visits_eq_edgeHistory` — the same for any run of a machine, without the numbers
-/

namespace Avrsim

open Infra Infra.Stretch

variable {ι α : Type}

/-! ## Reading a history -/

/-- Whether an event clears the log of `symbol`. -/
def Event.clears (symbol : String) : Event → Bool
  | .issued (.clearTrace symbol') _ => symbol' == symbol
  | _ => false

/-- The number of samples before the log of `symbol` was last cleared. -/
def samplesCleared (symbol : String) (events : List Event) : Nat :=
  (samplesOf (events.rdropWhile fun e => !e.clears symbol)).length

/-- Each sample with the number of resets before it, when there were `n` before the first event. -/
def epochs : Nat → List Event → List (Nat × Sample)
  | _, [] => []
  | n, .sampled s :: events => (n, s) :: epochs n events
  | n, .issued .reset _ :: events => epochs (n + 1) events
  | n, .issued _ _ :: events => epochs n events

/-- The number of resets among some events, after `n` others. -/
def resets : Nat → List Event → Nat
  | n, [] => n
  | n, .issued .reset _ :: events => resets (n + 1) events
  | n, _ :: events => resets n events

theorem samplesOf_append (events events' : List Event) :
    samplesOf (events ++ events') = samplesOf events ++ samplesOf events' :=
  List.filterMap_append

theorem map_snd_epochs : ∀ (n : Nat) (events : List Event),
    (epochs n events).map Prod.snd = samplesOf events
  | _, [] => rfl
  | n, .sampled s :: events => congrArg (s :: ·) (map_snd_epochs n events)
  | n, .issued op pc :: events => by
    cases op <;> exact map_snd_epochs _ events

theorem epochs_append : ∀ (n : Nat) (events events' : List Event),
    epochs n (events ++ events') = epochs n events ++ epochs (resets n events) events'
  | _, [], _ => rfl
  | n, .sampled s :: events, events' => congrArg ((n, s) :: ·) (epochs_append n events events')
  | n, .issued op pc :: events, events' => by
    cases op <;> exact epochs_append _ events events'

theorem resets_append : ∀ (n : Nat) (events events' : List Event),
    resets n (events ++ events') = resets (resets n events) events'
  | _, [], _ => rfl
  | n, .sampled _ :: events, events' => resets_append n events events'
  | n, .issued op pc :: events, events' => by
    cases op <;> exact resets_append _ events events'

theorem epochs_concat_issued (n : Nat) (events : List Event) (op : Op) (pc : UInt32) :
    epochs n (events ++ [.issued op pc]) = epochs n events := by
  rw [epochs_append]
  cases op <;> exact List.append_nil _

theorem samplesCleared_le (symbol : String) (n : Nat) (events : List Event) :
    samplesCleared symbol events ≤ (epochs n events).length := by
  rw [← List.length_map (f := Prod.snd), map_snd_epochs]
  have hpre : (events.rdropWhile fun e => !e.clears symbol) <+: events :=
    List.rdropWhile_prefix _ events
  exact (hpre.sublist.filterMap _).length_le

theorem samplesCleared_concat_of_clears {symbol : String} {events : List Event} {e : Event}
    (h : e.clears symbol = true) (n : Nat) :
    samplesCleared symbol (events ++ [e]) = (epochs n (events ++ [e])).length := by
  unfold samplesCleared
  rw [List.rdropWhile_concat_neg _ _ _ (by simp [h]), ← map_snd_epochs n, List.length_map]

theorem samplesCleared_concat {symbol : String} {events : List Event} {e : Event}
    (h : e.clears symbol = false) :
    samplesCleared symbol (events ++ [e]) = samplesCleared symbol events := by
  unfold samplesCleared
  rw [List.rdropWhile_concat_pos _ _ _ (by simp [h])]

/-! ## One sample -/

/-- The visit a stretch of samples amounts to. -/
def visitOf (cycle : α → UInt64) : Stretch α → Visit
  | ⟨a, none⟩ => ⟨cycle a, cycle a, 0, false⟩
  | ⟨a, some b⟩ => ⟨cycle a, cycle b, cycle b - cycle a, true⟩

theorem complete_visitOf (cycle : α → UInt64) (s : Stretch α) :
    (visitOf cycle s).complete = s.leave.isSome := by
  obtain ⟨a, b⟩ := s
  cases b <;> rfl

theorem leave_visits (cycle : α → UInt64) (b : α) {t : Trace} {log : List (Stretch α)}
    (h : t.visits = log.map (visitOf cycle)) :
    (t.leave (cycle b)).visits = (closeLast b log).map (visitOf cycle) := by
  rcases List.eq_nil_or_concat log with rfl | ⟨init, ⟨a, c⟩, rfl⟩
  · rw [Trace.leave_of_nil h]
    exact h
  · rw [List.concat_eq_append] at h ⊢
    have hlast : t.visits = init.map (visitOf cycle) ++ [visitOf cycle ⟨a, c⟩] := by
      rw [h, List.map_append, List.map_cons, List.map_nil]
    cases c with
    | none =>
      rw [closeLast_concat_open, Trace.leave_of_open hlast rfl, List.map_append]
      rfl
    | some c => rw [closeLast_concat_closed, Trace.leave_of_complete hlast rfl, h]

/-- One pass of `sampleTraces` over an entry is one observation of its stretches. -/
theorem sample_visits (pc : α → UInt32) (cycle : α → UInt64) (a : α) {item : Traced}
    {log : List (Stretch α)} (h : item.log.visits = log.map (visitOf cycle)) :
    (item.sample (pc a) (cycle a)).log.visits
      = (observe (fun a => item.contains (pc a)) (item.inside, log) a).2.map (visitOf cycle) := by
  cases hp : item.contains (pc a) <;> cases hin : item.inside
  · simpa [Traced.sample, observe, hp, hin] using h
  · simpa [Traced.sample, observe, hp, hin] using leave_visits cycle a h
  · simp [Traced.sample, observe, hp, hin, h, visitOf]
  · simpa [Traced.sample, observe, hp, hin] using h

/-! ## The entry of a symbol -/

/-- The signal of an entry: which samples are inside its extent. -/
def Traced.signal (item : Traced) (x : Nat × Sample) : Bool := item.contains x.2.pc

/-- The cycle of a numbered sample. -/
def epochCycle (x : Nat × Sample) : UInt64 := x.2.cycle

/-- The stretches of an entry over the events since it was made. -/
def Traced.opened (item : Traced) (symbol : String) (n : Nat) (events : List Event) :
    List (Stretch (Nat × Sample)) :=
  openedFrom item.signal item.inside (samplesCleared symbol events) (epochs n events)

theorem opened_concat_sampled (item : Traced) (symbol : String) (n : Nat) (events : List Event)
    (s : Sample) :
    item.opened symbol n (events ++ [.sampled s])
      = (observe item.signal
          (level item.signal item.inside (epochs n events), item.opened symbol n events)
          (resets n events, s)).2 := by
  unfold Traced.opened
  rw [samplesCleared_concat rfl, epochs_append]
  exact openedFrom_concat (samplesCleared_le symbol n events) _

theorem opened_concat_clears (item : Traced) {symbol : String} (n : Nat) {events : List Event}
    {e : Event} (h : e.clears symbol = true) : item.opened symbol n (events ++ [e]) = [] := by
  unfold Traced.opened
  rw [samplesCleared_concat_of_clears h n]
  exact openedFrom_length _ _

theorem opened_concat_issued (item : Traced) {symbol : String} (n : Nat) {events : List Event}
    {op : Op} {pc : UInt32} (h : (Event.issued op pc).clears symbol = false) :
    item.opened symbol n (events ++ [.issued op pc]) = item.opened symbol n events := by
  unfold Traced.opened
  rw [samplesCleared_concat h, epochs_concat_issued]

/-- **The entry of a symbol after any events**, from a fresh entry `item`. -/
theorem foldl_seeTraced (symbol : String) (prog : Program) {item : Traced}
    (hnew : item.log.visits = []) (n : Nat) (events : List Event) :
    ∃ log : Trace,
      events.foldl (seeTraced symbol prog) (some item)
          = some { item with
              inside := level item.signal item.inside (epochs n events), log := log }
        ∧ log.visits = (item.opened symbol n events).map (visitOf epochCycle) := by
  induction events using List.reverseRecOn with
  | nil => exact ⟨item.log, rfl, hnew⟩
  | append_singleton events e ih =>
    obtain ⟨log, hfold, hlog⟩ := ih
    rw [List.foldl_append, hfold, List.foldl_cons, List.foldl_nil]
    cases e with
    | sampled s =>
      let item' : Traced :=
        { item with inside := level item.signal item.inside (epochs n events), log := log }
      have hlog' : item'.log.visits = (item.opened symbol n events).map (visitOf epochCycle) := hlog
      refine ⟨(item'.sample s.pc s.cycle).log, ?_, ?_⟩
      · rw [epochs_append, level_append]
        rfl
      · rw [opened_concat_sampled]
        exact sample_visits (fun x : Nat × Sample => x.2.pc) epochCycle (resets n events, s) hlog'
    | issued op pc =>
      rw [epochs_concat_issued]
      cases hc : (Event.issued op pc).clears symbol with
      | true =>
        rw [opened_concat_clears item n hc]
        cases op with
        | clearTrace symbol' =>
          have heq : symbol' = symbol := by simpa [Event.clears] using hc
          exact ⟨log.clear, by simp [seeTraced, heq], rfl⟩
        | _ => cases hc
      | false =>
        rw [opened_concat_issued item n hc]
        refine ⟨log, ?_, hlog⟩
        cases op with
        | clearTrace symbol' =>
          have hne : symbol' ≠ symbol := by simpa [Event.clears] using hc
          simp [seeTraced, hne]
        | trace symbol' => simp [seeTraced]
        | _ => rfl

/-! ## The log of a run -/

/--
The visits called for by the samples of a function with this extent, `p₀` being the program
counter when it was first traced. One visit for each sample that is inside when the one before
it (`p₀` before the first) is outside, and that is not among the first `cleared`: it opens
there, and the first later sample outside closes it.
-/
def edgeHistory (extent : UInt32 → Bool) (p₀ : UInt32) (cleared : Nat) (samples : List Sample) :
    List Visit :=
  (openedFrom (fun s : Sample => extent s.pc) (extent p₀) cleared samples).map
    (visitOf Sample.cycle)

theorem visitOf_map {β : Type} (cycle : β → UInt64) (f : α → β) (s : Stretch α) :
    visitOf cycle (s.map f) = visitOf (cycle ∘ f) s := by
  obtain ⟨a, b⟩ := s
  cases b <;> rfl

theorem map_opened (item : Traced) {p₀ : UInt32} (hin : item.inside = item.contains p₀)
    (symbol : String) (n : Nat) (events : List Event) :
    (item.opened symbol n events).map (visitOf epochCycle)
      = edgeHistory item.contains p₀ (samplesCleared symbol events) (samplesOf events) := by
  unfold edgeHistory Traced.opened
  rw [← map_snd_epochs n, openedFrom_map _ (samplesCleared_le symbol n events), List.map_map, hin]
  exact List.map_congr_left fun s _ => (visitOf_map Sample.cycle Prod.snd s).symm

/-- All visits but the last are complete. -/
theorem pairwise_complete (extent : UInt32 → Bool) (p₀ : UInt32) {cleared : Nat}
    {samples : List Sample} (h : cleared ≤ samples.length) :
    (edgeHistory extent p₀ cleared samples).Pairwise fun v _ => v.complete = true := by
  unfold edgeHistory
  rw [openedFrom_eq_stretches _ _ h, List.pairwise_map]
  refine (pairwise_closed _ _).imp fun {s _} hs => ?_
  rw [complete_visitOf]
  exact hs

/-- A function that is not left after it was first traced has no visits. -/
theorem edgeHistory_of_occupied {extent : UInt32 → Bool} {p₀ : UInt32} {cleared : Nat}
    {samples : List Sample} (h : cleared ≤ samples.length) (h₀ : extent p₀ = true)
    (hall : ∀ s ∈ samples, extent s.pc = true) : edgeHistory extent p₀ cleared samples = [] := by
  have hlevel : level (fun s : Sample => extent s.pc) (extent p₀) (samples.take cleared) = true := by
    rw [level_eq_getLast?, h₀]
    cases hl : (samples.take cleared).getLast? with
    | none => rfl
    | some s => exact hall s (List.mem_of_mem_take (List.mem_of_getLast? hl))
  unfold edgeHistory
  rw [openedFrom_eq_stretches _ _ h, hlevel,
    stretches_true_eq_nil fun s hs => hall s (List.mem_of_mem_drop hs), List.map_nil]

theorem traced_trace_new {m : Mcu ι} {symbol : String} (hnew : m.traced[symbol]? = none) :
    (m.trace symbol).traced[symbol]? = some (Traced.new m.prog symbol m.avr.pc) := by
  rw [traced_trace, if_pos rfl, hnew, Option.getD_none]

/-- The entry of a symbol after any run that begins by tracing it. -/
theorem traced_runOps (sim : Simavr ι) {m : Mcu ι} {symbol : String}
    (hnew : m.traced[symbol]? = none) (ops : List Op) :
    ∃ item, (runOps sim (m.trace symbol) ops).traced[symbol]? = some item
      ∧ item.contains = (Traced.new m.prog symbol m.avr.pc).contains
      ∧ item.log.visits
          = ((Traced.new m.prog symbol m.avr.pc).opened symbol 0
              (history sim m.prog m.avr ops)).map (visitOf epochCycle) := by
  have hempty : (Traced.new m.prog symbol m.avr.pc).log.visits = [] := rfl
  obtain ⟨log, hfold, hlog⟩ :=
    foldl_seeTraced symbol m.prog hempty 0 (history sim m.prog m.avr ops)
  have hview : (runOps sim (m.trace symbol) ops).traced[symbol]?
      = (history sim (m.trace symbol).prog (m.trace symbol).avr ops).foldl
          (seeTraced symbol (m.trace symbol).prog) (m.trace symbol).traced[symbol]? :=
    (traceObserver sim symbol).view_runOps (m.trace symbol) ops
  rw [traced_trace_new hnew, Mcu.trace_prog, Mcu.trace_avr, hfold] at hview
  exact ⟨_, hview, rfl, hlog⟩

/--
**The log of a traced function is its edge history**, over any run of any machine from where the
function was first traced. Only the last visit can be open, and a function that is occupied when
it is first traced records nothing until it is left.
-/
theorem visits_eq_edgeHistory (sim : Simavr ι) {m : Mcu ι} {symbol : String}
    (hnew : m.traced[symbol]? = none) (ops : List Op) :
    ∃ item, (runOps sim (m.trace symbol) ops).traced[symbol]? = some item
      ∧ item.contains = (Traced.new m.prog symbol m.avr.pc).contains
      ∧ item.log.visits
          = edgeHistory item.contains m.avr.pc
              (samplesCleared symbol (history sim m.prog m.avr ops))
              (samplesOf (history sim m.prog m.avr ops))
      ∧ item.log.visits.Pairwise (fun v _ => v.complete = true)
      ∧ (item.contains m.avr.pc = true →
          (∀ s ∈ samplesOf (history sim m.prog m.avr ops), item.contains s.pc = true) →
          item.log.visits = []) := by
  obtain ⟨item, hitem, hcontains, hvisits⟩ := traced_runOps sim hnew ops
  have hle : samplesCleared symbol (history sim m.prog m.avr ops)
      ≤ (samplesOf (history sim m.prog m.avr ops)).length := by
    rw [← map_snd_epochs 0, List.length_map]
    exact samplesCleared_le symbol 0 _
  rw [map_opened _ rfl] at hvisits
  refine ⟨item, hitem, hcontains, ?_, ?_, ?_⟩
  · rw [hcontains]
    exact hvisits
  · rw [hvisits]
    exact pairwise_complete _ _ hle
  · intro h₀ hall
    rw [hvisits]
    rw [hcontains] at h₀ hall
    exact edgeHistory_of_occupied hle h₀ hall

/-- Two passes through a function of two instructions, and a third that is still open. -/
theorem visits_eq_edgeHistory_loop :
    ∃ item,
      (runOps Isa.simavr (Isa.turns.trace "f") [.run 12]).traced["f"]? = some item
        ∧ item.log.visits = [⟨2, 5, 3, true⟩, ⟨7, 10, 3, true⟩, ⟨12, 12, 0, false⟩] := by
  have hnew : Isa.turns.traced["f"]? = none := rfl
  obtain ⟨item, hitem, hcontains, hvisits, -⟩ :=
    visits_eq_edgeHistory Isa.simavr hnew [.run 12]
  refine ⟨item, hitem, ?_⟩
  rw [hvisits, hcontains]
  decide +kernel

end Avrsim
