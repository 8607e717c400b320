import Avrsim.Core

/-!
# Visit logs

`Trace` of `trace.cpp`: the visits to one function, oldest first.
-/

namespace Avrsim

/-- One pass through a function. -/
structure Visit where
  entry : UInt64
  exit : UInt64
  cycles : UInt64
  complete : Bool
deriving DecidableEq, Repr

/-- Every visit to one function, in order. -/
structure Trace where
  visits : List Visit
deriving DecidableEq, Repr

namespace Trace

/-- The log a `Trace` starts with. -/
def new : Trace := ⟨[]⟩

/-- Open a visit. -/
def enter (cycle : UInt64) (t : Trace) : Trace :=
  ⟨t.visits ++ [⟨cycle, cycle, 0, false⟩]⟩

/-- Close the open visit. Nothing happens when there is none. -/
def leave (cycle : UInt64) (t : Trace) : Trace :=
  match t.visits.getLast? with
  -- control was inside when the trace began, or the log has been cleared since it entered
  | none => t
  | some visit =>
    if visit.complete then t
    else
      ⟨t.visits.dropLast
        ++ [{ visit with exit := cycle, cycles := cycle - visit.entry, complete := true }]⟩

def count (t : Trace) : Nat := t.visits.length

/-- Cycles spent inside the function, over every completed visit. -/
def totalCycles (t : Trace) : UInt64 :=
  t.visits.foldl (fun total visit => if visit.complete then total + visit.cycles else total) 0

/-- The cost of the cheapest completed visit, or 0 if there is none. -/
def shortest (t : Trace) : UInt64 :=
  (t.visits.foldl
    (fun (best, found) visit =>
      if !visit.complete then (best, found)
      else (if !found || visit.cycles < best then visit.cycles else best, true))
    ((0 : UInt64), false)).1

/-- The cost of the dearest completed visit, or 0 if there is none. -/
def longest (t : Trace) : UInt64 :=
  t.visits.foldl
    (fun worst visit =>
      if visit.complete && visit.cycles > worst then visit.cycles else worst) 0

/-- Cycles between the entries of two visits, or 0 if either index is out of range. -/
def gap (first second : Nat) (t : Trace) : UInt64 :=
  match t.visits[first]?, t.visits[second]? with
  | some v, some v' => v'.entry - v.entry
  | _, _ => 0

/-- Which visits begin a call, when the calls are much further apart than the visits of one. -/
def callStarts (t : Trace) : List Nat :=
  if 2 > t.visits.length then []
  else
    let later := List.range' 1 (t.visits.length - 1)
    let between index := t.gap (index - 1) index
    let largest :=
      later.foldl (fun largest index =>
        if between index > largest then between index else largest) 0
    let threshold := largest / 2
    0 :: later.filter fun index => threshold < between index

/-- Forget everything recorded so far. -/
def clear (_ : Trace) : Trace := ⟨[]⟩

@[simp] theorem new_visits : new.visits = [] := rfl

@[simp] theorem clear_visits (t : Trace) : t.clear.visits = [] := rfl

@[simp] theorem enter_visits (cycle : UInt64) (t : Trace) :
    (t.enter cycle).visits = t.visits ++ [⟨cycle, cycle, 0, false⟩] := rfl

theorem leave_of_nil {cycle : UInt64} {t : Trace} (h : t.visits = []) : t.leave cycle = t := by
  simp [leave, h]

/-- A log whose last visit is complete is left alone. -/
theorem leave_of_complete {cycle : UInt64} {t : Trace} {init : List Visit} {v : Visit}
    (h : t.visits = init ++ [v]) (hv : v.complete = true) : t.leave cycle = t := by
  simp [leave, h, hv]

theorem leave_of_open {cycle : UInt64} {t : Trace} {init : List Visit} {v : Visit}
    (h : t.visits = init ++ [v]) (hv : v.complete = false) :
    (t.leave cycle).visits
      = init ++ [{ v with exit := cycle, cycles := cycle - v.entry, complete := true }] := by
  simp [leave, h, hv]

theorem length_leave (cycle : UInt64) (t : Trace) :
    (t.leave cycle).visits.length = t.visits.length := by
  rcases List.eq_nil_or_concat t.visits with h | ⟨init, v, h⟩
  · rw [leave_of_nil h]
  · rw [List.concat_eq_append] at h
    cases hv : v.complete with
    | true => rw [leave_of_complete h hv]
    | false =>
      rw [leave_of_open h hv, h]
      simp

end Trace

end Avrsim
