import Avrsim.Core

/-!
# Stack watches

`StackWatch` of `stackwatch.cpp`: the deepest the stack pointer went inside one range.
-/

namespace Avrsim

/-- The lowest seen before anything has been sampled. -/
def noMark : UInt16 := 0xFFFF

structure StackWatch where
  low : UInt16
  high : UInt16
  myLowest : UInt16
  entered : Bool
deriving DecidableEq, Repr

namespace StackWatch

def new (low high : UInt16) : StackWatch := ⟨low, high, noMark, false⟩

/-- Record the stack pointer. -/
def sample (ptr : UInt16) (w : StackWatch) : StackWatch :=
  let inside := w.low ≤ ptr && ptr ≤ w.high
  if !inside then w
  else
    { w with
      myLowest := if !w.entered || ptr < w.myLowest then ptr else w.myLowest
      entered := true }

/-- The lowest stack pointer seen inside the range, or 0 if it was never entered. -/
def lowest (w : StackWatch) : UInt16 := if w.entered then w.myLowest else 0

/-- How many bytes of the range were in use at the deepest instant. -/
def deepestBytes (w : StackWatch) : UInt16 :=
  let used := w.high - w.myLowest
  if w.entered then used else 0

/-- Forget what was recorded, keeping the range. -/
def clear (w : StackWatch) : StackWatch := { w with myLowest := noMark, entered := false }

/-- The range a watch is registered under. -/
def range (w : StackWatch) : UInt16 × UInt16 := (w.low, w.high)

@[simp] theorem range_new (low high : UInt16) : (new low high).range = (low, high) := rfl

@[simp] theorem range_sample (ptr : UInt16) (w : StackWatch) : (w.sample ptr).range = w.range := by
  simp only [sample]
  split <;> rfl

@[simp] theorem range_clear (w : StackWatch) : w.clear.range = w.range := rfl

end StackWatch

end Avrsim
