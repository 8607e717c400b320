import Mathlib.Data.List.DropRight
import Avrsim.Isa
import Avrsim.Spec.History

/-!
# Pin logs

A session goes through pin events: pins are watched, notifications are raised, resets complete.
Which ones, the program and the core alone decide. The log of a pin holds the notifications raised
on it since the later of its first watch and the last reset, and no others.

* `PinsWired` — every watched pin has one hook, and it points at the log of that pin
* `pins_session` — the log of a pin is a fold over the pin events
* `foldl_seePin` — what that fold comes to
* `pinLogs_exact` — the two put together, with the order of the cycles
-/

namespace Avrsim

open Infra.Loop

variable {ι : Type}

/-! ## Pin events -/

/-- Something that happens to the pins in a session. -/
inductive PinEvent where
  | watched (pin : PinKey)
  | raised (notice : Notice)
  | reset
deriving DecidableEq, Repr

/-- The notifications a loop raises, those of each of its instructions. -/
def StepLoop.notices (sim : Simavr ι) (l : StepLoop ι) : List Notice :=
  (List.range (l.steps sim)).flatMap fun j => (sim.avrRun (coreAt sim l.start j)).2

/-- The pin events of one operation. A reset completes after what `avr_reset` itself raises. -/
def pinEventsOf (sim : Simavr ι) (prog : Program) (c : Core ι) (op : Op) : List PinEvent :=
  match prog.stepLoop c op with
  | some l => (l.notices sim).map .raised
  | none => if op = .reset then (sim.avrReset c).2.map .raised ++ [.reset] else []

/-- The pin events of one command. -/
def Command.pinEvents (sim : Simavr ι) (prog : Program) (c : Core ι) : Command → List PinEvent
  | .op operation => pinEventsOf sim prog c operation
  | .watch port bit => [.watched (port, bit)]
  | .drive port bit level =>
    if sim.avrIoGetirq (port, bit) then
      (sim.avrRaiseIrq (port, bit) (if level then 1 else 0) c).2.map .raised
    else []

/-- What one command does to the core. -/
def Command.coreAfter (sim : Simavr ι) (prog : Program) (c : Core ι) : Command → Core ι
  | .op operation => Avrsim.coreAfter sim prog c operation
  | .watch _ _ => c
  | .drive port bit level =>
    if sim.avrIoGetirq (port, bit) then
      (sim.avrRaiseIrq (port, bit) (if level then 1 else 0) c).1
    else c

/-- The pin events of a session from the core `c`. -/
def pinHistory (sim : Simavr ι) (prog : Program) : Core ι → List Command → List PinEvent
  | _, [] => []
  | c, cmd :: cmds =>
    cmd.pinEvents sim prog c ++ pinHistory sim prog (cmd.coreAfter sim prog c) cmds

/-! ## What a pin log sees of them -/

/-- The entry a notification makes. -/
def Notice.transition (notice : Notice) : Transition := ⟨notice.cycle, 0 != notice.value⟩

/-- The entry an event makes in the log of `pin`, if it makes one. -/
def PinEvent.entry? (pin : PinKey) : PinEvent → Option Transition
  | .raised notice => if notice.pin = pin then some notice.transition else none
  | _ => none

/-- What an event does to the log of `pin`. -/
def seePin (pin : PinKey) : Option PinLog → PinEvent → Option PinLog
  | log, .watched pin' => if pin' = pin then some (log.getD PinLog.new) else log
  | log, .raised notice =>
    if notice.pin = pin then log.map (PinLog.record notice.cycle (0 != notice.value)) else log
  | log, .reset => log.map PinLog.clear

/-- The events after the first at which `pin` is watched. -/
def sincePinWatched (pin : PinKey) (events : List PinEvent) : List PinEvent :=
  (events.dropWhile fun e => e != .watched pin).tail

/-- The events after the last reset, or all of them. -/
def sinceReset (events : List PinEvent) : List PinEvent :=
  events.rtakeWhile fun e => e != .reset

/-- The log of a pin that has been watched, told from the events. -/
def recorded (pin : PinKey) (events : List PinEvent) : PinLog :=
  ⟨(sinceReset (sincePinWatched pin events)).filterMap (PinEvent.entry? pin)⟩

/-- A pin that is watched already records what is raised on it, from the last reset on. -/
theorem foldl_seePin_some (pin : PinKey) (log : PinLog) (events : List PinEvent) :
    events.foldl (seePin pin) (some log)
      = some ⟨(if .reset ∈ events then [] else log.transitions)
          ++ (sinceReset events).filterMap (PinEvent.entry? pin)⟩ := by
  induction events using List.reverseRecOn with
  | nil => simp [sinceReset]
  | append_singleton events e ih =>
    rw [List.foldl_append, ih, List.foldl_cons, List.foldl_nil]
    unfold sinceReset
    cases e with
    | watched pin' =>
      rw [List.rtakeWhile_concat_pos _ _ _ rfl, List.filterMap_append]
      simp [seePin, PinEvent.entry?]
    | raised notice =>
      rw [List.rtakeWhile_concat_pos _ _ _ rfl, List.filterMap_append]
      by_cases hpin : notice.pin = pin
      · simp [seePin, PinEvent.entry?, PinLog.record, Notice.transition, hpin]
      · simp [seePin, PinEvent.entry?, hpin]
    | reset =>
      rw [List.rtakeWhile_concat_neg _ _ _ (by simp)]
      simp [seePin, PinLog.clear]

/-- **What the log of a pin comes to**: nothing before it is watched, `recorded` after. -/
theorem foldl_seePin (pin : PinKey) : ∀ events : List PinEvent,
    events.foldl (seePin pin) none
      = if .watched pin ∈ events then some (recorded pin events) else none
  | [] => rfl
  | e :: events => by
    by_cases he : e = .watched pin
    · subst he
      rw [List.foldl_cons, if_pos List.mem_cons_self]
      have hsee : seePin pin none (.watched pin) = some PinLog.new := by simp [seePin]
      rw [hsee, foldl_seePin_some]
      simp [recorded, sincePinWatched]
    · have hsee : seePin pin none e = none := by
        cases e with
        | watched pin' =>
          have hpin : pin' ≠ pin := fun h => he (h ▸ rfl)
          simp [seePin, hpin]
        | raised notice => simp [seePin]
        | reset => rfl
      rw [List.foldl_cons, hsee, foldl_seePin pin events]
      simp [recorded, sincePinWatched, he, Ne.symm he]

/-! ## One hook for each watched pin -/

/-- Every watched pin has exactly one hook, which records into its own log. -/
def Mcu.PinsWired (m : Mcu ι) : Prop :=
  ∀ pin, m.hooks.filter (fun hook => hook.irq = pin)
    = if m.pins.contains pin then [⟨pin, pin⟩] else []

/-- Machines with the same hooks and the same watched pins are wired alike. -/
theorem Mcu.PinsWired.congr {m m' : Mcu ι} (h : m.PinsWired) (hhooks : m'.hooks = m.hooks)
    (hpins : ∀ pin, m'.pins.contains pin = m.pins.contains pin) : m'.PinsWired := by
  intro pin
  rw [hhooks, hpins]
  exact h pin

theorem contains_onPinChanged (hooks : List PinHook) (notice : Notice) (pin : PinKey) :
    ∀ pins : PinMap, (onPinChanged hooks pins notice).contains pin = pins.contains pin := by
  unfold onPinChanged
  induction hooks with
  | nil => exact fun _ => rfl
  | cons hook hooks ih =>
    intro pins
    rw [List.foldl_cons, ih]
    split
    · exact Std.TreeMap.contains_modify
    · rfl

theorem contains_foldl_onPinChanged (hooks : List PinHook) (pin : PinKey) :
    ∀ (notices : List Notice) (pins : PinMap),
      (notices.foldl (onPinChanged hooks) pins).contains pin = pins.contains pin
  | [], _ => rfl
  | notice :: notices, pins => by
    rw [List.foldl_cons, contains_foldl_onPinChanged hooks pin notices,
      contains_onPinChanged]

theorem Mcu.PinsWired.absorb {m : Mcu ι} (h : m.PinsWired) (r : Core ι × List Notice) :
    (m.absorb r).PinsWired :=
  h.congr rfl fun pin => contains_foldl_onPinChanged m.hooks pin r.2 m.pins

/-- A notification is recorded once, in the log of its own pin. -/
theorem getElem?_onPinChanged {hooks : List PinHook} {pins : PinMap} {notice : Notice}
    (hwired : hooks.filter (fun hook => hook.irq = notice.pin)
      = if pins.contains notice.pin then [⟨notice.pin, notice.pin⟩] else []) (pin : PinKey) :
    (onPinChanged hooks pins notice)[pin]? = seePin pin pins[pin]? (.raised notice) := by
  have hfold : onPinChanged hooks pins notice
      = (hooks.filter fun hook => hook.irq = notice.pin).foldl
          (fun pins hook =>
            pins.modify hook.log (PinLog.record notice.cycle (0 != notice.value))) pins := by
    rw [List.foldl_filter]
    simp only [decide_eq_true_eq]
    rfl
  rw [hfold, hwired]
  by_cases hc : pins.contains notice.pin = true
  · rw [if_pos hc, List.foldl_cons, List.foldl_nil, Std.TreeMap.getElem?_modify]
    by_cases hpin : notice.pin = pin
    · subst hpin
      simp [seePin]
    · simp [seePin, hpin]
  · rw [if_neg hc, List.foldl_nil]
    by_cases hpin : notice.pin = pin
    · subst hpin
      have hnone : pins[notice.pin]? = none :=
        Std.TreeMap.getElem?_eq_none_of_contains_eq_false (Bool.not_eq_true _ ▸ hc)
      simp [seePin, hnone]
    · simp [seePin, hpin]

/-- Taking over what the core did records its notifications, oldest first. -/
theorem Mcu.PinsWired.pins_absorb {m : Mcu ι} (h : m.PinsWired) (r : Core ι × List Notice)
    (pin : PinKey) :
    (m.absorb r).pins[pin]? = (r.2.map PinEvent.raised).foldl (seePin pin) m.pins[pin]? := by
  obtain ⟨c, notices⟩ := r
  induction notices using List.reverseRecOn with
  | nil => rfl
  | append_singleton notices notice ih =>
    have hwired : m.hooks.filter (fun hook => hook.irq = notice.pin)
        = if (m.absorb (c, notices)).pins.contains notice.pin then [⟨notice.pin, notice.pin⟩]
          else [] := h.absorb (c, notices) notice.pin
    have hstep : (m.absorb (c, notices ++ [notice])).pins
        = onPinChanged m.hooks (m.absorb (c, notices)).pins notice :=
      List.foldl_append
    rw [hstep, getElem?_onPinChanged hwired pin, ih, List.map_append, List.foldl_append]
    rfl

/-! ## One step -/

theorem Mcu.PinsWired.tick {m : Mcu ι} (h : m.PinsWired) (sim : Simavr ι) :
    (m.tick sim).PinsWired :=
  (h.absorb (sim.avrRun m.avr)).congr rfl fun _ => rfl

theorem Mcu.PinsWired.pins_tick {m : Mcu ι} (h : m.PinsWired) (sim : Simavr ι) (pin : PinKey) :
    (m.tick sim).pins[pin]?
      = ((sim.avrRun m.avr).2.map PinEvent.raised).foldl (seePin pin) m.pins[pin]? :=
  h.pins_absorb (sim.avrRun m.avr) pin

theorem Mcu.PinsWired.pins_iterate_tick {m : Mcu ι} (h : m.PinsWired) (sim : Simavr ι)
    (pin : PinKey) : ∀ k : Nat,
      ((Mcu.tick sim)^[k] m).PinsWired
        ∧ ((Mcu.tick sim)^[k] m).pins[pin]?
          = (((List.range k).flatMap fun j => (sim.avrRun (coreAt sim m.avr j)).2).map
              PinEvent.raised).foldl (seePin pin) m.pins[pin]?
  | 0 => ⟨h, rfl⟩
  | k + 1 => by
    obtain ⟨hwired, hpins⟩ := h.pins_iterate_tick sim pin k
    rw [Function.iterate_succ_apply', List.range_succ, List.flatMap_append, List.map_append,
      List.foldl_append, ← hpins, List.flatMap_singleton]
    refine ⟨hwired.tick sim, ?_⟩
    rw [hwired.pins_tick, Mcu.iterate_tick_avr]
    rfl

theorem Mcu.PinsWired.pins_runLoop {m : Mcu ι} (h : m.PinsWired) (sim : Simavr ι)
    (l : StepLoop ι) (pin : PinKey) :
    (m.runLoop sim l).PinsWired
      ∧ (m.runLoop sim l).pins[pin]?
        = ((l.notices sim).map PinEvent.raised).foldl (seePin pin) m.pins[pin]? := by
  have hstart : ({ m with avr := l.start } : Mcu ι).PinsWired := h
  rw [Mcu.runLoop_eq_iterate]
  exact hstart.pins_iterate_tick sim pin (l.steps sim)

/-- Short of a loop and a reset, an operation leaves the pins alone. -/
theorem pins_exec_of_none (sim : Simavr ι) {m : Mcu ι} {op : Op}
    (hl : m.prog.stepLoop m.avr op = none) (hop : op ≠ .reset) :
    (exec sim m op).2.pins = m.pins ∧ (exec sim m op).2.hooks = m.hooks := by
  cases hs : op.steps with
  | true =>
    rw [exec_of_stepLoop_none sim hs hl]
    exact ⟨rfl, rfl⟩
  | false =>
    cases op with
    | reset => exact absurd rfl hop
    | trace symbol =>
      show (m.trace symbol).pins = m.pins ∧ (m.trace symbol).hooks = m.hooks
      unfold Mcu.trace
      split <;> exact ⟨rfl, rfl⟩
    | watchStack low high =>
      show (m.watchStack low high).pins = m.pins ∧ (m.watchStack low high).hooks = m.hooks
      unfold Mcu.watchStack
      split <;> exact ⟨rfl, rfl⟩
    | call symbol cycleBudget => cases hs
    | run cycles => cases hs
    | runUntil symbol cycleBudget => cases hs
    | _ => exact ⟨rfl, rfl⟩

/-- The logs are cleared once the core has been reset. -/
theorem Mcu.pins_reset_eq (m : Mcu ι) (sim : Simavr ι) (pin : PinKey) :
    (m.reset sim).pins[pin]? = (m.absorb (sim.avrReset m.avr)).pins[pin]?.map PinLog.clear :=
  Std.TreeMap.getElem?_map

theorem Mcu.PinsWired.pins_reset {m : Mcu ι} (h : m.PinsWired) (sim : Simavr ι) (pin : PinKey) :
    (m.reset sim).PinsWired
      ∧ (m.reset sim).pins[pin]?
        = ((sim.avrReset m.avr).2.map PinEvent.raised ++ [PinEvent.reset]).foldl (seePin pin)
            m.pins[pin]? := by
  have hwired := h.absorb (sim.avrReset m.avr)
  constructor
  · exact hwired.congr rfl fun pin => Std.TreeMap.contains_map
  · rw [m.pins_reset_eq, List.foldl_append, ← h.pins_absorb (sim.avrReset m.avr) pin]
    rfl

theorem Mcu.PinsWired.pins_exec {m : Mcu ι} (h : m.PinsWired) (sim : Simavr ι) (op : Op)
    (pin : PinKey) :
    (exec sim m op).2.PinsWired
      ∧ (exec sim m op).2.pins[pin]?
        = (pinEventsOf sim m.prog m.avr op).foldl (seePin pin) m.pins[pin]? := by
  unfold pinEventsOf
  cases hl : m.prog.stepLoop m.avr op with
  | some l =>
    rw [exec_snd_of_stepLoop sim hl]
    exact h.pins_runLoop sim l pin
  | none =>
    by_cases hop : op = .reset
    · subst hop
      exact h.pins_reset sim pin
    · obtain ⟨hpins, hhooks⟩ := pins_exec_of_none sim hl hop
      rw [if_neg hop, hpins]
      exact ⟨h.congr hhooks fun pin => by rw [hpins], rfl⟩

theorem watch_frame {m m' : Mcu ι} {sim : Simavr ι} {port : Char} {bit : UInt8}
    (hw : m.watch sim port bit = .ok m') : m'.prog = m.prog ∧ m'.avr = m.avr := by
  unfold Mcu.watch at hw
  split at hw
  · cases hw
    exact ⟨rfl, rfl⟩
  · split at hw
    · cases hw
      exact ⟨rfl, rfl⟩
    · cases hw

/-- Watching a pin adds a hook only when there was none. -/
theorem Mcu.PinsWired.pins_watch {m m' : Mcu ι} (h : m.PinsWired) {sim : Simavr ι} {port : Char}
    {bit : UInt8} (hw : m.watch sim port bit = .ok m') (pin : PinKey) :
    m'.PinsWired ∧ m'.pins[pin]? = seePin pin m.pins[pin]? (.watched (port, bit)) := by
  unfold Mcu.watch at hw
  by_cases hc : m.pins.contains (port, bit) = true
  · rw [if_pos hc] at hw
    cases hw
    refine ⟨h, ?_⟩
    by_cases hpin : (port, bit) = pin
    · subst hpin
      rw [Std.TreeMap.contains_eq_isSome_getElem?] at hc
      obtain ⟨log, hlog⟩ := Option.isSome_iff_exists.mp hc
      simp [seePin, hlog]
    · simp [seePin, hpin]
  · rw [if_neg hc] at hw
    split at hw
    · cases hw
      have hnone : m.pins[(port, bit)]? = none :=
        Std.TreeMap.getElem?_eq_none_of_contains_eq_false (Bool.not_eq_true _ ▸ hc)
      constructor
      · intro pin
        rw [List.filter_append, h pin, Std.TreeMap.contains_insert]
        by_cases hpin : (port, bit) = pin
        · subst hpin
          simp [hc]
        · simp [hpin]
      · rw [Std.TreeMap.getElem?_insert]
        by_cases hpin : (port, bit) = pin
        · subst hpin
          simp [seePin, hnone]
        · simp [seePin, hpin]
    · cases hw

/-- **What one command does to the pins.** -/
theorem Mcu.PinsWired.exec {m m' : Mcu ι} (h : m.PinsWired) {sim : Simavr ι} {cmd : Command}
    (hexec : cmd.exec sim m = .ok m') (pin : PinKey) :
    m'.PinsWired ∧ m'.prog = m.prog ∧ m'.avr = cmd.coreAfter sim m.prog m.avr
      ∧ m'.pins[pin]? = (cmd.pinEvents sim m.prog m.avr).foldl (seePin pin) m.pins[pin]? := by
  cases cmd with
  | op operation =>
    cases hexec
    obtain ⟨hwired, hpins⟩ := h.pins_exec sim operation pin
    exact ⟨hwired, exec_prog sim m operation, exec_avr sim m operation, hpins⟩
  | watch port bit =>
    obtain ⟨hwired, hpins⟩ := h.pins_watch hexec pin
    obtain ⟨hprog, havr⟩ := watch_frame hexec
    exact ⟨hwired, hprog, havr, hpins⟩
  | drive port bit level =>
    cases hexec
    simp only [Mcu.drive, Command.coreAfter, Command.pinEvents]
    split
    · exact ⟨h.absorb _, rfl, rfl, h.pins_absorb _ pin⟩
    · exact ⟨h, rfl, rfl, rfl⟩

/-- **The log of every pin is a fold over the pin events of the session.** -/
theorem pins_session {sim : Simavr ι} (pin : PinKey) : ∀ {m m' : Mcu ι} {cmds : List Command},
    m.PinsWired → session sim m cmds = .ok m' →
      m'.pins[pin]? = (pinHistory sim m.prog m.avr cmds).foldl (seePin pin) m.pins[pin]?
  | m, m', [], _, h => by
    obtain rfl := session_nil.mp h
    rfl
  | m, m', cmd :: cmds, hwired, h => by
    obtain ⟨m₁, hexec, hrest⟩ := session_cons.mp h
    obtain ⟨hwired₁, hprog, havr, hpins⟩ := hwired.exec hexec pin
    rw [pins_session pin hwired₁ hrest, hprog, havr, hpins, pinHistory, List.foldl_append]

/-! ## The cycles in a log -/

/-- Some notifications are stamped in order, between two readings of the cycle counter. -/
structure Stamped (from' to' : UInt64) (notices : List Notice) : Prop where
  sorted : notices.Pairwise fun n n' => n.cycle ≤ n'.cycle
  bounds : ∀ n ∈ notices, from' ≤ n.cycle ∧ n.cycle ≤ to'
  le : from' ≤ to'

/-- The counter never goes back, and a notification is stamped with what it is at that moment. -/
structure Simavr.StampsInOrder (sim : Simavr ι) : Prop where
  run : ∀ c : Core ι, Stamped c.cycle (sim.next c).cycle (sim.avrRun c).2
  raise : ∀ pin value (c : Core ι),
    Stamped c.cycle (sim.avrRaiseIrq pin value c).1.cycle (sim.avrRaiseIrq pin value c).2

/-- A log whose cycles go up, and are not ahead of the counter. -/
structure PinLog.InOrder (now : UInt64) (log : PinLog) : Prop where
  sorted : log.transitions.Pairwise fun t t' => t.cycle ≤ t'.cycle
  bound : ∀ t ∈ log.transitions, t.cycle ≤ now

/-- What some notifications do to the log of one pin. -/
theorem foldl_seePin_raised (pin : PinKey) (log : Option PinLog) (notices : List Notice) :
    (notices.map PinEvent.raised).foldl (seePin pin) log
      = log.map fun log => ⟨log.transitions
          ++ (notices.filter fun n => n.pin = pin).map Notice.transition⟩ := by
  induction notices using List.reverseRecOn with
  | nil => simp
  | append_singleton notices notice ih =>
    rw [List.map_append, List.foldl_append, ih, List.map_singleton, List.foldl_cons, List.foldl_nil,
      List.filter_append]
    by_cases hpin : notice.pin = pin
    · simp [seePin, hpin, Function.comp_def, PinLog.record, Notice.transition]
    · simp [seePin, hpin]

theorem PinLog.InOrder.append {now next : UInt64} {log : PinLog} (h : log.InOrder now)
    {notices : List Notice} (hs : Stamped now next notices) (pin : PinKey) :
    InOrder next ⟨log.transitions
      ++ (notices.filter fun n => n.pin = pin).map Notice.transition⟩ := by
  constructor
  · refine List.pairwise_append.mpr ⟨h.sorted, ?_, ?_⟩
    · exact (hs.sorted.filter _).map _ fun _ _ hle => hle
    · intro t ht t' ht'
      obtain ⟨n, hn, rfl⟩ := List.mem_map.mp ht'
      exact UInt64.le_trans (h.bound t ht) (hs.bounds n (List.mem_of_mem_filter hn)).1
  · intro t ht
    rcases List.mem_append.mp ht with ht | ht
    · exact UInt64.le_trans (h.bound t ht) hs.le
    · obtain ⟨n, hn, rfl⟩ := List.mem_map.mp ht
      exact (hs.bounds n (List.mem_of_mem_filter hn)).2

/-- A log that has just been made or cleared is. -/
theorem PinLog.inOrder_nil (now : UInt64) : InOrder now ⟨[]⟩ :=
  ⟨List.Pairwise.nil, fun _ ht => absurd ht List.not_mem_nil⟩

/-- Every log of the machine is in order. -/
def Mcu.LogsInOrder (m : Mcu ι) : Prop :=
  ∀ (pin : PinKey) (log : PinLog), m.pins[pin]? = some log → log.InOrder m.avr.cycle

/-- The invariant of a session: one hook for each watched pin, and every log in order. -/
structure Mcu.PinsOk (m : Mcu ι) : Prop where
  wired : m.PinsWired
  ordered : m.LogsInOrder

theorem Mcu.PinsOk.absorb {m : Mcu ι} (h : m.PinsOk) {r : Core ι × List Notice}
    (hs : Stamped m.avr.cycle r.1.cycle r.2) : (m.absorb r).PinsOk := by
  refine ⟨h.wired.absorb r, ?_⟩
  intro pin log hlog
  rw [h.wired.pins_absorb, foldl_seePin_raised] at hlog
  obtain ⟨old, hold, rfl⟩ := Option.map_eq_some_iff.mp hlog
  exact (h.ordered pin old hold).append hs pin

theorem Mcu.PinsOk.runLoop {sim : Simavr ι} (hord : sim.StampsInOrder) {m : Mcu ι} (h : m.PinsOk)
    {l : StepLoop ι} (hl : l.start.cycle = m.avr.cycle) : (m.runLoop sim l).PinsOk := by
  have hstart : ({ m with avr := l.start } : Mcu ι).PinsOk := by
    refine ⟨h.wired, fun pin log hlog => ?_⟩
    show log.InOrder l.start.cycle
    rw [hl]
    exact h.ordered pin log hlog
  refine stepWhile_induction (P := Mcu.PinsOk) (fun m hm => ?_) l.cap _ hstart
  have habsorb := hm.absorb (r := sim.avrRun m.avr) (hord.run m.avr)
  exact ⟨hm.wired.tick sim, habsorb.ordered⟩

/-- A watch changes no log, and may make one. -/
theorem Mcu.PinsOk.logsInOrder_watch {sim : Simavr ι} {m m' : Mcu ι} (h : m.PinsOk) {port : Char}
    {bit : UInt8} (hw : m.watch sim port bit = .ok m') : m'.LogsInOrder := by
  intro pin log hlog
  rw [(h.wired.pins_watch hw pin).2] at hlog
  rw [(watch_frame hw).2]
  by_cases hpin : (port, bit) = pin
  · simp only [seePin, hpin, if_true, Option.some.injEq] at hlog
    cases hold : m.pins[pin]? with
    | none =>
      rw [hold] at hlog
      obtain rfl := hlog
      exact PinLog.inOrder_nil _
    | some old =>
      rw [hold] at hlog
      obtain rfl := hlog
      exact h.ordered pin old hold
  · simp only [seePin, hpin, if_false] at hlog
    exact h.ordered pin log hlog

/-- A command keeps the invariant. -/
theorem Mcu.PinsOk.exec {sim : Simavr ι} (hord : sim.StampsInOrder) {m m' : Mcu ι} (h : m.PinsOk)
    {cmd : Command} (hexec : cmd.exec sim m = .ok m') : m'.PinsOk := by
  refine ⟨(h.wired.exec hexec ('B', 0)).1, ?_⟩
  cases cmd with
  | op op =>
    cases hexec
    cases hl : m.prog.stepLoop m.avr op with
    | some l =>
      rw [exec_snd_of_stepLoop sim hl]
      exact (h.runLoop hord (stepLoop_start_cycle hl)).ordered
    | none =>
      by_cases hop : op = .reset
      · subst hop
        -- the logs are empty now, whatever the counter went back to
        intro pin log hlog
        have hpins : (Avrsim.exec sim m .reset).2.pins = (m.reset sim).pins := rfl
        rw [hpins, m.pins_reset_eq] at hlog
        obtain ⟨old, -, rfl⟩ := Option.map_eq_some_iff.mp hlog
        exact PinLog.inOrder_nil _
      · intro pin log hlog
        rw [(pins_exec_of_none sim hl hop).1] at hlog
        rw [exec_avr, coreAfter_cycle sim hl hop]
        exact h.ordered pin log hlog
  | watch port bit => exact h.logsInOrder_watch hexec
  | drive port bit level =>
    cases hexec
    show (m.drive sim port bit level).LogsInOrder
    unfold Mcu.drive
    split
    · exact (h.absorb (hord.raise _ _ m.avr)).ordered
    · exact h.ordered

theorem Mcu.PinsOk.session {sim : Simavr ι} (hord : sim.StampsInOrder) :
    ∀ {m m' : Mcu ι} {cmds : List Command}, m.PinsOk → session sim m cmds = .ok m' → m'.PinsOk
  | m, m', [], hm, h => by
    obtain rfl := session_nil.mp h
    exact hm
  | m, m', cmd :: cmds, hm, h => by
    obtain ⟨m₁, hexec, hrest⟩ := session_cons.mp h
    exact Mcu.PinsOk.session hord (hm.exec hord hexec) hrest

theorem pinsOk_ofProgram (prog : Program) (clockHz : UInt32) (c : Core ι) :
    (Mcu.ofProgram prog clockHz c).PinsOk := by
  constructor
  · intro pin
    have hempty : (Mcu.ofProgram prog clockHz c).pins.contains pin = false :=
      Std.TreeMap.contains_emptyc
    rw [hempty]
    rfl
  · intro pin log hlog
    have hempty : (Mcu.ofProgram prog clockHz c).pins[pin]? = none := Std.TreeMap.getElem?_emptyc
    rw [hempty] at hlog
    cases hlog

/-- The gaps in a log that is in order add up, with no wrap. -/
theorem PinLog.InOrder.gap_add {now : UInt64} {log : PinLog} (h : log.InOrder now) {i j k : Nat}
    (hij : i ≤ j) (hjk : j ≤ k) (hk : k < log.count) :
    (log.gap i k).toNat = (log.gap i j).toNat + (log.gap j k).toNat := by
  have hk' : k < log.transitions.length := hk
  have hj' : j < log.transitions.length := by omega
  have hi' : i < log.transitions.length := by omega
  have hle : ∀ a b (ha : a < log.transitions.length) (hb : b < log.transitions.length), a ≤ b →
      log.transitions[a].cycle ≤ log.transitions[b].cycle := by
    intro a b ha hb hab
    rcases Nat.lt_or_eq_of_le hab with hlt | rfl
    · exact List.pairwise_iff_getElem.mp h.sorted a b ha hb hlt
    · exact UInt64.le_refl _
  have h₁ := hle i j hi' hj' hij
  have h₂ := hle j k hj' hk' hjk
  rw [gap_eq hi' hk', gap_eq hi' hj', gap_eq hj' hk',
    UInt64.toNat_sub_of_le _ _ (UInt64.le_trans h₁ h₂), UInt64.toNat_sub_of_le _ _ h₁,
    UInt64.toNat_sub_of_le _ _ h₂]
  rw [UInt64.le_iff_toNat_le] at h₁ h₂
  omega

/--
**Pin logs lose and duplicate nothing.** After any session the log of a pin holds the
notifications raised on that pin since the later of its first watch and the last completed reset,
each once and no others. Its cycles go up, and its gaps add up with no wrap.
-/
theorem pinLogs_exact {sim : Simavr ι} (hord : sim.StampsInOrder) {prog : Program}
    {clockHz : UInt32} {c : Core ι} {cmds : List Command} {m : Mcu ι}
    (h : session sim (Mcu.ofProgram prog clockHz c) cmds = .ok m) (pin : PinKey) :
    m.pins[pin]? = (if .watched pin ∈ pinHistory sim prog c cmds then
        some (recorded pin (pinHistory sim prog c cmds)) else none)
      ∧ ∀ log, m.pins[pin]? = some log →
        log.transitions.Pairwise (fun t t' => t.cycle ≤ t'.cycle)
          ∧ ∀ i j k, i ≤ j → j ≤ k → k < log.count →
            (log.gap i k).toNat = (log.gap i j).toNat + (log.gap j k).toNat := by
  have hok := pinsOk_ofProgram prog clockHz c
  constructor
  · have hempty : (Mcu.ofProgram prog clockHz c).pins[pin]? = none := Std.TreeMap.getElem?_emptyc
    rw [pins_session pin hok.wired h, hempty]
    exact foldl_seePin pin _
  · intro log hlog
    have hlogOrder := (hok.session hord h).ordered pin log hlog
    exact ⟨hlogOrder.sorted, fun i j k hij hjk hk => hlogOrder.gap_add hij hjk hk⟩

/-! ## A core that raises its pins -/

/--
A core that raises PB5 at every instruction, and PB4 as well at every other. It lowers PB5 when it
is reset, and stops rather than wrap its cycle counter.
-/
def blinker : Simavr Unit where
  avrMake := fun _ => some (Isa.atmega328p, Isa.resetCore fun _ => 0)
  avrLoadFirmware := fun _ c => c
  avrRun := fun c =>
    if c.cycle < c.cycle + 1 then
      ({ c with cycle := c.cycle + 1 },
        if c.cycle % 2 = 0 then [⟨('B', 5), c.cycle, 1⟩, ⟨('B', 4), c.cycle + 1, 0⟩]
        else [⟨('B', 5), c.cycle + 1, 0⟩])
    else (c, [])
  avrReset := fun c => ({ c with cycle := 0 }, [⟨('B', 5), c.cycle, 0⟩])
  avrIoGetirq := fun pin => pin.1 == 'B'
  avrRaiseIrq := fun pin value c => (c, [⟨pin, c.cycle, value⟩])

theorem stampsInOrder_blinker : blinker.StampsInOrder := by
  constructor
  · intro c
    have hle := UInt64.le_refl c.cycle
    by_cases hlt : c.cycle < c.cycle + 1
    · have hle' := UInt64.le_of_lt hlt
      have hnext := UInt64.le_refl (c.cycle + 1)
      by_cases heven : c.cycle % 2 = 0
      · constructor <;> simp [blinker, Simavr.next, hlt, heven, hle']
      · constructor <;> simp [blinker, Simavr.next, hlt, heven, hle']
    · constructor <;> simp [blinker, Simavr.next, hlt]
  · intro pin value c
    constructor <;> simp [blinker]

/-- PB5 is watched twice, on both sides of a reset, and PB4 only after it. -/
def blinkerCommands : List Command :=
  [.op (.run 1), .watch 'B' 5, .op (.run 3), .op .reset, .watch 'B' 4, .op (.run 2),
    .watch 'B' 5, .op (.run 1)]

theorem pinLogs_exact_blinker :
    ∃ m, session blinker (Mcu.ofProgram Isa.turns.prog 16000000 (Isa.resetCore fun _ => 0))
        blinkerCommands = .ok m
      ∧ m.pins[('B', (5 : UInt8))]? = some ⟨[⟨0, true⟩, ⟨2, false⟩, ⟨2, true⟩]⟩
      ∧ m.pins[('B', (4 : UInt8))]? = some ⟨[⟨1, false⟩, ⟨3, false⟩]⟩
      ∧ ∀ log, m.pins[('B', (5 : UInt8))]? = some log →
        (log.gap 0 2).toNat = (log.gap 0 1).toNat + (log.gap 1 2).toNat := by
  have hok : ∃ m, session blinker
      (Mcu.ofProgram Isa.turns.prog 16000000 (Isa.resetCore fun _ => 0)) blinkerCommands = .ok m :=
    ⟨_, rfl⟩
  obtain ⟨m, hm⟩ := hok
  obtain ⟨h5, hgap⟩ := pinLogs_exact stampsInOrder_blinker hm ('B', 5)
  obtain ⟨h4, -⟩ := pinLogs_exact stampsInOrder_blinker hm ('B', 4)
  have hlog : (if .watched ('B', 5) ∈ pinHistory blinker Isa.turns.prog (Isa.resetCore fun _ => 0)
        blinkerCommands then
      some (recorded ('B', 5) (pinHistory blinker Isa.turns.prog (Isa.resetCore fun _ => 0)
        blinkerCommands)) else none)
      = some ⟨[⟨0, true⟩, ⟨2, false⟩, ⟨2, true⟩]⟩ := by decide +kernel
  refine ⟨m, hm, h5.trans hlog, h4.trans (by decide +kernel), ?_⟩
  intro log hpin
  refine (hgap log hpin).2 0 1 2 (by omega) (by omega) ?_
  rw [h5.trans hlog] at hpin
  cases hpin
  decide

end Avrsim
