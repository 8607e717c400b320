import Avrsim.Spec.History

/-!
# The observers of the harness

The three things a test reads back after a run, each as an observer of the history: the log of
one traced symbol, the watch on one stack range, and the stack watermark.
-/

namespace Avrsim

variable {ι : Type}

/-! ## The log of one symbol -/

/-- What an event does to the entry of `symbol` in the table of traced functions. -/
def seeTraced (symbol : String) (prog : Program) : Option Traced → Event → Option Traced
  | item, .sampled s => item.map (Traced.sample s.pc s.cycle)
  | item, .issued (.trace symbol') pc =>
    if symbol' = symbol then some (item.getD (Traced.new prog symbol pc)) else item
  | item, .issued (.clearTrace symbol') _ =>
    if symbol' = symbol then item.map fun item => { item with log := item.log.clear } else item
  | item, _ => item

theorem traced_trace (m : Mcu ι) (symbol symbol' : String) :
    (m.trace symbol').traced[symbol]?
      = if symbol' = symbol then some (m.traced[symbol]?.getD (Traced.new m.prog symbol m.avr.pc))
        else m.traced[symbol]? := by
  unfold Mcu.trace
  by_cases hc : m.traced.contains symbol' = true
  · rw [if_pos hc]
    split
    · next heq =>
      subst heq
      rw [Std.TreeMap.contains_eq_isSome_getElem?] at hc
      obtain ⟨item, hitem⟩ := Option.isSome_iff_exists.mp hc
      rw [hitem, Option.getD_some]
    · rfl
  · rw [if_neg hc, Std.TreeMap.getElem?_insert]
    by_cases heq : symbol' = symbol
    · subst heq
      have hnone : m.traced[symbol']? = none :=
        Std.TreeMap.getElem?_eq_none_of_contains_eq_false (Bool.not_eq_true _ ▸ hc)
      simp [hnone]
    · simp [heq]

theorem traced_clearTrace (m : Mcu ι) (symbol symbol' : String) :
    (m.clearTrace symbol').traced[symbol]?
      = if symbol' = symbol then
          m.traced[symbol]?.map fun item => { item with log := item.log.clear }
        else m.traced[symbol]? := by
  unfold Mcu.clearTrace
  rw [Std.TreeMap.getElem?_modify]
  by_cases heq : symbol' = symbol
  · subst heq
    simp
  · simp [heq]

/-- The entry of one symbol. -/
def traceObserver (sim : Simavr ι) (symbol : String) : Observer sim (Option Traced) where
  view := fun m => m.traced[symbol]?
  see := seeTraced symbol
  view_start := fun _ _ => rfl
  view_tick := fun m => Mcu.tick_traced sim m symbol
  see_steps := by
    rintro prog item op pc hs
    cases op <;> first | rfl | cases hs
  view_exec := by
    intro m op hs
    cases op with
    | trace symbol' => exact traced_trace m symbol symbol'
    | clearTrace symbol' => exact traced_clearTrace m symbol symbol'
    | watchStack low high =>
      show (m.watchStack low high).traced[symbol]? = m.traced[symbol]?
      unfold Mcu.watchStack
      split <;> rfl
    | call symbol' cycleBudget => cases hs
    | run cycles => cases hs
    | runUntil symbol' cycleBudget => cases hs
    | _ => rfl

/-! ## The watch on one range -/

/-- The watch that `watchStack` hands out for a range, if there is one. -/
def Mcu.stackWatch (m : Mcu ι) (range : UInt16 × UInt16) : Option StackWatch :=
  m.stackWatches.find? fun w => decide (w.range = range)

/-- What an event does to the watch on `range`. -/
def seeWatch (range : UInt16 × UInt16) : Option StackWatch → Event → Option StackWatch
  | w, .sampled s => w.map (StackWatch.sample s.sp)
  | w, .issued (.watchStack low high) _ =>
    if (low, high) = range then some (w.getD (StackWatch.new low high)) else w
  | w, .issued (.clearStack low high) _ =>
    if (low, high) = range then w.map StackWatch.clear else w
  | w, _ => w

/-- An update that keeps every range acts on the watch of each. -/
theorem find?_map_range {f : StackWatch → StackWatch} (hf : ∀ w, (f w).range = w.range)
    (range : UInt16 × UInt16) (ws : List StackWatch) :
    (ws.map f).find? (fun w => decide (w.range = range))
      = (ws.find? fun w => decide (w.range = range)).map f := by
  rw [List.find?_map]
  congr 2
  funext w
  rw [Function.comp_apply, hf]

theorem stackWatch_eq_none {m : Mcu ι} {low high : UInt16} :
    m.stackWatch (low, high) = none
      ↔ m.stackWatches.any (fun w => low == w.low && high == w.high) = false := by
  unfold Mcu.stackWatch StackWatch.range
  rw [List.find?_eq_none, List.any_eq_false]
  simp only [decide_eq_true_eq, Prod.mk.injEq, Bool.and_eq_true, beq_iff_eq, eq_comm (a := low),
    eq_comm (a := high)]

theorem stackWatch_watchStack (m : Mcu ι) (range : UInt16 × UInt16) (low high : UInt16) :
    (m.watchStack low high).stackWatch range
      = if (low, high) = range then
          some ((m.stackWatch range).getD (StackWatch.new low high))
        else m.stackWatch range := by
  unfold Mcu.watchStack
  cases hany : m.stackWatches.any (fun w => low == w.low && high == w.high) with
  | true =>
    rw [if_pos rfl]
    split
    · next heq =>
      subst heq
      cases hw : m.stackWatch (low, high) with
      | none => rw [stackWatch_eq_none.mp hw] at hany; cases hany
      | some w => rfl
    · rfl
  | false =>
    rw [if_neg (by simp)]
    show (m.stackWatches ++ [StackWatch.new low high]).find? _ = _
    rw [List.find?_append]
    by_cases heq : (low, high) = range
    · subst heq
      have hnone : m.stackWatches.find? (fun w => decide (w.range = (low, high))) = none :=
        stackWatch_eq_none.mpr hany
      have hnone' : m.stackWatch (low, high) = none := hnone
      rw [hnone, hnone']
      simp
    · simp [heq, Mcu.stackWatch]

theorem stackWatch_clearStack (m : Mcu ι) (range : UInt16 × UInt16) (low high : UInt16) :
    (m.clearStack low high).stackWatch range
      = if (low, high) = range then (m.stackWatch range).map StackWatch.clear
        else m.stackWatch range := by
  have hrange : ∀ w : StackWatch,
      (if w.range = (low, high) then w.clear else w).range = w.range := by
    intro w
    split <;> simp
  unfold Mcu.stackWatch Mcu.clearStack
  rw [find?_map_range hrange]
  cases hw : m.stackWatches.find? (fun w => decide (w.range = range)) with
  | none => simp
  | some w =>
    have hwr : w.range = range := by simpa using List.find?_some hw
    subst hwr
    by_cases heq : w.range = (low, high)
    · simp [heq]
    · simp [heq, Ne.symm heq]

/-- The watch on one range. -/
def watchObserver (sim : Simavr ι) (range : UInt16 × UInt16) :
    Observer sim (Option StackWatch) where
  view := fun m => m.stackWatch range
  see := fun _ => seeWatch range
  view_start := fun _ _ => rfl
  view_tick := fun m => find?_map_range (fun w => StackWatch.range_sample _ w) range _
  see_steps := by
    rintro prog w op pc hs
    cases op <;> first | rfl | cases hs
  view_exec := by
    intro m op hs
    cases op with
    | trace symbol =>
      show (m.trace symbol).stackWatch range = m.stackWatch range
      unfold Mcu.trace
      split <;> rfl
    | watchStack low high => exact stackWatch_watchStack m range low high
    | clearStack low high => exact stackWatch_clearStack m range low high
    | call symbol' cycleBudget => cases hs
    | run cycles => cases hs
    | runUntil symbol' cycleBudget => cases hs
    | _ => rfl

/-! ## The watermark -/

/-- What an event does to the stack watermark. -/
def seeMark : UInt16 → Event → UInt16
  | mark, .sampled s => if s.sp < mark then s.sp else mark
  | _, .issued .resetStackWatermark _ => noStackMark
  | mark, _ => mark

/-- The stack watermark. -/
def markObserver (sim : Simavr ι) : Observer sim UInt16 where
  view := Mcu.lowestStackPtr
  see := fun _ => seeMark
  view_start := fun _ _ => rfl
  view_tick := fun m => Mcu.tick_lowestStack sim m
  see_steps := by
    rintro prog mark op pc hs
    cases op <;> first | rfl | cases hs
  view_exec := by
    intro m op hs
    cases op with
    | trace symbol =>
      show (m.trace symbol).lowestStackPtr = m.lowestStackPtr
      unfold Mcu.trace
      split <;> rfl
    | watchStack low high =>
      show (m.watchStack low high).lowestStackPtr = m.lowestStackPtr
      unfold Mcu.watchStack
      split <;> rfl
    | call symbol' cycleBudget => cases hs
    | run cycles => cases hs
    | runUntil symbol' cycleBudget => cases hs
    | _ => rfl

end Avrsim
