import Avrsim.Core

/-!
# Pin logs

`PinLog` of `pin.cpp`: the transitions of one pin, oldest first.
-/

namespace Avrsim

/-- One transition: when it happened, and what the pin became. -/
structure Transition where
  cycle : UInt64
  level : Bool
deriving DecidableEq, Repr

/-- Every transition of one pin, in order. -/
structure PinLog where
  transitions : List Transition
deriving DecidableEq, Repr

namespace PinLog

def new : PinLog := ⟨[]⟩

/-- Record a transition. -/
def record (cycle : UInt64) (level : Bool) (log : PinLog) : PinLog :=
  ⟨log.transitions ++ [⟨cycle, level⟩]⟩

/-- How many times the pin changed. -/
def count (log : PinLog) : Nat := log.transitions.length

/-- What the pin last became, or low if it never changed. -/
def level (log : PinLog) : Bool := (log.transitions.getLast?.map Transition.level).getD false

/-- Cycles between two recorded transitions, or 0 if either index is out of range. -/
def gap (first second : Nat) (log : PinLog) : UInt64 :=
  match log.transitions[first]?, log.transitions[second]? with
  | some t, some t' => t'.cycle - t.cycle
  | _, _ => 0

/-- Forget everything recorded so far. -/
def clear (_ : PinLog) : PinLog := ⟨[]⟩

@[simp] theorem new_transitions : new.transitions = [] := rfl

@[simp] theorem clear_transitions (log : PinLog) : log.clear.transitions = [] := rfl

@[simp] theorem record_transitions (cycle : UInt64) (level : Bool) (log : PinLog) :
    (log.record cycle level).transitions = log.transitions ++ [⟨cycle, level⟩] := rfl

theorem gap_eq {log : PinLog} {i j : Nat} (hi : i < log.transitions.length)
    (hj : j < log.transitions.length) :
    log.gap i j = log.transitions[j].cycle - log.transitions[i].cycle := by
  unfold gap
  rw [List.getElem?_eq_getElem hi, List.getElem?_eq_getElem hj]

end PinLog

end Avrsim
