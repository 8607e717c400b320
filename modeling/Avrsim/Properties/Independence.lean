import Avrsim.Spec.Observers

/-!
# Measuring does not disturb

Two runs that differ only in what they register: `trace` and `watchStack` leave every later
result and every later core as they were, and what one symbol or one range records does not
depend on which others are registered, on the order, or on registering it again.

* `replies_filter` — the results and cores of the operations that are not registrations
* `Observer.SeesOnly` — an observer that sees only the first registration of one thing
* `registrations_do_not_disturb` — both, for any machine
-/

namespace Avrsim

variable {ι : Type}

/-- The operations that only register something to measure. -/
def Op.registers : Op → Bool
  | .trace _ | .watchStack _ _ => true
  | _ => false

theorem steps_of_registers {op : Op} (h : op.registers = true) : op.steps = false := by
  cases op <;> first | rfl | cases h

/-- The operations of a run, each with its result and the core after it. -/
def replies (sim : Simavr ι) : Mcu ι → List Op → List (Op × Outcome × Core ι)
  | _, [] => []
  | m, op :: ops =>
    (op, (exec sim m op).1, (exec sim m op).2.avr) :: replies sim (exec sim m op).2 ops

/-- Drop every registration but the first that is `first`, or that one too if it was `seen`. -/
def keepFirst (first : Op) : Bool → List Op → List Op
  | _, [] => []
  | seen, op :: ops =>
    if op.registers then
      if op = first ∧ seen = false then op :: keepFirst first true ops
      else keepFirst first seen ops
    else op :: keepFirst first seen ops

/-! ## Results -/

/-- The result of an operation, read off the program and the core. -/
def outcomeOf (sim : Simavr ι) (prog : Program) (c : Core ι) : Op → Outcome
  | .call symbol cycleBudget =>
    .call (if noAddress = prog.address symbol then ⟨false, 0⟩
      else (untilLoop prog.trap cycleBudget (prog.enterCall (prog.address symbol) c)).report sim
        prog.trap cycleBudget)
  | .run cycles => .cycles (((forLoop cycles c.wake).final sim).cycle - c.cycle)
  | .runUntil symbol cycleBudget =>
    .call (if noAddress = prog.address symbol then ⟨false, 0⟩
      else (untilLoop (prog.address symbol) cycleBudget c.wake).report sim (prog.address symbol)
        cycleBudget)
  | _ => .nothing

theorem exec_fst (sim : Simavr ι) (m : Mcu ι) (op : Op) :
    (exec sim m op).1 = outcomeOf sim m.prog m.avr op := by
  cases op with
  | call symbol cycleBudget =>
    show Outcome.call (m.call sim symbol cycleBudget).1 = Outcome.call _
    by_cases hd : noAddress = m.prog.address symbol
    · rw [if_pos hd, Mcu.call_of_undefined sim cycleBudget hd.symm]
    · rw [if_neg hd, Mcu.call_eq sim cycleBudget (Ne.symm hd)]
      rfl
  | run cycles =>
    show Outcome.cycles (m.run sim cycles).1 = Outcome.cycles _
    rw [Mcu.run_eq]
  | runUntil symbol cycleBudget =>
    show Outcome.call (m.runUntil sim symbol cycleBudget).1 = Outcome.call _
    by_cases hd : noAddress = m.prog.address symbol
    · rw [if_pos hd, Mcu.runUntil_of_undefined sim cycleBudget hd.symm]
    · rw [if_neg hd, Mcu.runUntil_eq sim cycleBudget (Ne.symm hd)]
      rfl
  | _ => rfl

theorem exec_avr_of_registers (sim : Simavr ι) (m : Mcu ι) {op : Op} (h : op.registers = true) :
    (exec sim m op).2.avr = m.avr := by
  rw [exec_avr]
  cases op <;> first | rfl | cases h

/-- Two machines with one program and one core reply alike, whatever they measure. -/
theorem replies_filter (sim : Simavr ι) : ∀ {m m' : Mcu ι}, m.prog = m'.prog → m.avr = m'.avr →
    ∀ ops : List Op, (replies sim m ops).filter (fun r => !r.1.registers)
      = replies sim m' (ops.filter fun op => !op.registers)
  | _, _, _, _, [] => rfl
  | m, m', hprog, havr, op :: ops => by
    have hprog' : (exec sim m op).2.prog = m'.prog := by rw [exec_prog, hprog]
    rw [replies]
    cases hr : op.registers with
    | true =>
      rw [List.filter_cons_of_neg (by simp [hr]), List.filter_cons_of_neg (by simp [hr])]
      exact replies_filter sim hprog' ((exec_avr_of_registers sim m hr).trans havr) ops
    | false =>
      have havr' : (exec sim m op).2.avr = (exec sim m' op).2.avr := by
        rw [exec_avr, exec_avr, hprog, havr]
      have hout : (exec sim m op).1 = (exec sim m' op).1 := by
        rw [exec_fst, exec_fst, hprog, havr]
      rw [List.filter_cons_of_pos (by simp [hr]), List.filter_cons_of_pos (by simp [hr]), replies,
        hout, havr', replies_filter sim (hprog'.trans (exec_prog sim m' op).symm) havr' ops]

/-! ## Logs -/

namespace Observer

variable {sim : Simavr ι} {β : Type} (o : Observer sim β)

/-- Two machines that only what is not observed tells apart. -/
structure Agree (m m' : Mcu ι) : Prop where
  prog : m.prog = m'.prog
  avr : m.avr = m'.avr
  view : o.view m = o.view m'

variable {o}

theorem Agree.exec {m m' : Mcu ι} (h : o.Agree m m') (op : Op) :
    o.Agree (exec sim m op).2 (exec sim m' op).2 := by
  refine ⟨?_, ?_, ?_⟩
  · rw [exec_prog, exec_prog, h.prog]
  · rw [exec_avr, exec_avr, h.prog, h.avr]
  · rw [o.view_exec_foldl, o.view_exec_foldl, h.prog, h.avr, h.view]

/-- A registration that the observer does not see can be left out. -/
theorem Agree.skip {m m' : Mcu ι} (h : o.Agree m m') {op : Op} (hr : op.registers = true)
    (hsee : o.see m.prog (o.view m) (.issued op m.avr.pc) = o.view m) :
    o.Agree (Avrsim.exec sim m op).2 m' := by
  refine ⟨?_, ?_, ?_⟩
  · rw [exec_prog, h.prog]
  · rw [exec_avr_of_registers sim m hr, h.avr]
  · rw [o.view_exec m op (steps_of_registers hr), hsee, h.view]

/--
The only registration an observer sees is the first of `first`, and `known` tells whether there
has been one: nothing else changes that.
-/
structure SeesOnly (o : Observer sim β) (first : Op) (known : β → Bool) : Prop where
  registers : first.registers = true
  skips : ∀ prog b op pc, op.registers = true → (op = first → known b = true) →
    o.see prog b (.issued op pc) = b
  first : ∀ prog b pc, known (o.see prog b (.issued first pc)) = true
  issued : ∀ prog b op pc, op.registers = false → known (o.see prog b (.issued op pc)) = known b
  sampled : ∀ prog b s, known (o.see prog b (.sampled s)) = known b

theorem SeesOnly.foldl_sampled {first : Op} {known : β → Bool} (h : o.SeesOnly first known)
    (prog : Program) : ∀ (samples : List Sample) (b : β),
      known ((samples.map Event.sampled).foldl (o.see prog) b) = known b
  | [], _ => rfl
  | s :: samples, b => (h.foldl_sampled prog samples _).trans (h.sampled prog b s)

theorem SeesOnly.exec {first : Op} {known : β → Bool} (h : o.SeesOnly first known) (m : Mcu ι)
    {op : Op} (hr : op.registers = false) :
    known (o.view (Avrsim.exec sim m op).2) = known (o.view m) := by
  rw [o.view_exec_foldl, List.foldl_cons, h.foldl_sampled]
  exact h.issued m.prog _ op _ hr

/--
**An observer that sees only the first registration of one thing ends up the same without the
others.**
-/
theorem SeesOnly.keepFirst {first : Op} {known : β → Bool} (hobs : o.SeesOnly first known) :
    ∀ (ops : List Op) {m m' : Mcu ι}, o.Agree m m' →
      o.Agree (runOps sim m ops) (runOps sim m' (keepFirst first (known (o.view m)) ops))
  | [], _, _, h => h
  | op :: ops, m, m', h => by
    rw [runOps_cons, Avrsim.keepFirst]
    cases hr : op.registers with
    | false =>
      rw [if_neg Bool.false_ne_true, runOps_cons, ← hobs.exec m hr]
      exact hobs.keepFirst ops (h.exec op)
    | true =>
      rw [if_pos rfl]
      by_cases hnew : op = first ∧ known (o.view m) = false
      · rw [if_pos hnew, runOps_cons]
        obtain ⟨rfl, -⟩ := hnew
        have hknown : known (o.view (Avrsim.exec sim m op).2) = true := by
          rw [o.view_exec m op (steps_of_registers hr)]
          exact hobs.first m.prog _ _
        rw [← hknown]
        exact hobs.keepFirst ops (h.exec op)
      · -- a repetition, or a registration of something else
        rw [if_neg hnew]
        have hsee : o.see m.prog (o.view m) (.issued op m.avr.pc) = o.view m := by
          refine hobs.skips _ _ _ _ hr fun heq => ?_
          by_contra hk
          exact hnew ⟨heq, by simpa using hk⟩
        have hskip := h.skip hr hsee
        have hview : o.view (Avrsim.exec sim m op).2 = o.view m := hskip.view.trans h.view.symm
        rw [← hview]
        exact hobs.keepFirst ops hskip

/-- Two runs that keep the same are observed the same. -/
theorem SeesOnly.view_eq {first : Op} {known : β → Bool} (hobs : o.SeesOnly first known)
    (m : Mcu ι) {ops ops' : List Op}
    (h : Avrsim.keepFirst first (known (o.view m)) ops
      = Avrsim.keepFirst first (known (o.view m)) ops') :
    o.view (runOps sim m ops) = o.view (runOps sim m ops') := by
  have hself : o.Agree m m := ⟨rfl, rfl, rfl⟩
  rw [(hobs.keepFirst ops hself).view, h, (hobs.keepFirst ops' hself).view]

end Observer

theorem traceObserver_seesOnly (sim : Simavr ι) (symbol : String) :
    (traceObserver sim symbol).SeesOnly (.trace symbol) Option.isSome where
  registers := rfl
  skips := by
    intro prog item op pc hr hknown
    cases op with
    | trace symbol' =>
      by_cases heq : symbol' = symbol
      · obtain ⟨item', rfl⟩ := Option.isSome_iff_exists.mp (hknown (by rw [heq]))
        exact if_pos heq
      · exact if_neg heq
    | watchStack low high => rfl
    | _ => cases hr
  first := by
    intro prog item pc
    show (if symbol = symbol then _ else _ : Option Traced).isSome = true
    rw [if_pos rfl]
    rfl
  issued := by
    intro prog item op pc hr
    cases op with
    | trace symbol' => cases hr
    | watchStack low high => cases hr
    | clearTrace symbol' =>
      show (if symbol' = symbol then _ else _ : Option Traced).isSome = item.isSome
      split
      · exact Option.isSome_map
      · rfl
    | _ => rfl
  sampled := fun _ _ _ => Option.isSome_map

theorem watchObserver_seesOnly (sim : Simavr ι) (low high : UInt16) :
    (watchObserver sim (low, high)).SeesOnly (.watchStack low high) Option.isSome where
  registers := rfl
  skips := by
    intro prog w op pc hr hknown
    cases op with
    | watchStack low' high' =>
      by_cases heq : (low', high') = (low, high)
      · obtain ⟨rfl, rfl⟩ := Prod.mk.inj heq
        obtain ⟨w', rfl⟩ := Option.isSome_iff_exists.mp (hknown rfl)
        exact if_pos rfl
      · exact if_neg heq
    | trace symbol => rfl
    | _ => cases hr
  first := by
    intro prog w pc
    show (if (low, high) = (low, high) then _ else _ : Option StackWatch).isSome = true
    rw [if_pos rfl]
    rfl
  issued := by
    intro prog w op pc hr
    cases op with
    | trace symbol => cases hr
    | watchStack low' high' => cases hr
    | clearStack low' high' =>
      show (if (low', high') = (low, high) then _ else _ : Option StackWatch).isSome = w.isSome
      split
      · exact Option.isSome_map
      · rfl
    | _ => rfl
  sampled := fun _ _ _ => Option.isSome_map

/--
**Measuring does not disturb what is measured**, from any machine. Without the registrations
every other operation has the same result and leaves the same core; and what a symbol or a range
records is the same in any two runs that differ only in registrations other than its first.
-/
theorem registrations_do_not_disturb (sim : Simavr ι) (m : Mcu ι) (ops : List Op) :
    (replies sim m ops).filter (fun r => !r.1.registers)
        = replies sim m (ops.filter fun op => !op.registers)
      ∧ (∀ symbol ops', keepFirst (.trace symbol) m.traced[symbol]?.isSome ops
            = keepFirst (.trace symbol) m.traced[symbol]?.isSome ops' →
          (runOps sim m ops).traced[symbol]? = (runOps sim m ops').traced[symbol]?)
      ∧ ∀ low high ops', keepFirst (.watchStack low high) (m.stackWatch (low, high)).isSome ops
            = keepFirst (.watchStack low high) (m.stackWatch (low, high)).isSome ops' →
          (runOps sim m ops).stackWatch (low, high) = (runOps sim m ops').stackWatch (low, high) := by
  refine ⟨replies_filter sim rfl rfl ops, ?_, ?_⟩
  · intro symbol ops' h
    exact (traceObserver_seesOnly sim symbol).view_eq m h
  · intro low high ops' h
    exact (watchObserver_seesOnly sim low high).view_eq m h

end Avrsim
