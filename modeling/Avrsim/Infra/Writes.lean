import Mathlib.Data.List.Basic
import Mathlib.Data.List.Induction
import Mathlib.Logic.Function.Basic

/-!
# Lists of writes

A memory is a function, a write an address with a value. After a list of writes an address holds the
last value that was written there, or what it held before.

* `store` — a memory after some writes
* `lastWrite` — the last value that some writes give to an address
* `store_eq` — the one in terms of the other
-/

namespace Infra.Writes

variable {α β : Type*} [DecidableEq α]

/-- A memory after some writes, the oldest first. -/
def store (mem : α → β) (writes : List (α × β)) : α → β :=
  writes.foldl (fun mem write => Function.update mem write.1 write.2) mem

/-- The last value that some writes give to an address. -/
def lastWrite (writes : List (α × β)) (addr : α) : Option β :=
  (writes.reverse.find? fun write => decide (write.1 = addr)).map Prod.snd

@[simp] theorem store_nil (mem : α → β) : store mem [] = mem := rfl

@[simp] theorem store_cons (mem : α → β) (write : α × β) (writes : List (α × β)) :
    store mem (write :: writes) = store (Function.update mem write.1 write.2) writes := rfl

theorem store_append (mem : α → β) (writes writes' : List (α × β)) :
    store mem (writes ++ writes') = store (store mem writes) writes' :=
  List.foldl_append

theorem lastWrite_concat (writes : List (α × β)) (write : α × β) (addr : α) :
    lastWrite (writes ++ [write]) addr
      = if write.1 = addr then some write.2 else lastWrite writes addr := by
  unfold lastWrite
  rw [List.reverse_concat']
  by_cases h : write.1 = addr
  · rw [List.find?_cons_of_pos (by simpa using h), if_pos h, Option.map_some]
  · rw [List.find?_cons_of_neg (by simpa using h), if_neg h]

/-- **An address holds the last value written to it.** -/
theorem store_eq (mem : α → β) (writes : List (α × β)) (addr : α) :
    store mem writes addr = (lastWrite writes addr).getD (mem addr) := by
  induction writes using List.reverseRecOn with
  | nil => rfl
  | append_singleton writes write ih =>
    rw [store_append, store_cons, store_nil, lastWrite_concat]
    by_cases h : write.1 = addr
    · subst h
      rw [Function.update_self, if_pos rfl, Option.getD_some]
    · rw [Function.update_of_ne (Ne.symm h), if_neg h, ih]

end Infra.Writes
