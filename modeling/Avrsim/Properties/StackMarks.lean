import Mathlib.Data.List.DropRight
import Avrsim.Loader
import Avrsim.Spec.Observers

/-!
# Stack marks

The watermark and the stack watches are exact minima of the stack pointers that were sampled.

* `foldl_seeMark` — the watermark after any events
* `foldl_seeWatch` — the watch on a range after any events
* `stackMarks_exact` — both, for any run of a machine that starts with nothing recorded
-/

namespace Avrsim

variable {ι : Type}

/-! ## Minima of lists -/

/-- The minimum of a list with one more element. -/
theorem min?_concat {α : Type} [Min α] (xs : List α) (x : α) :
    (xs ++ [x]).min? = some ((xs.min?.map fun m => min m x).getD x) := by
  cases xs with
  | nil => rfl
  | cons a xs =>
    rw [List.cons_append, List.min?_cons', List.min?_cons', List.foldl_append]
    rfl

/-- Keeping the smaller of two is `min`, whichever way the test is written. -/
theorem ite_lt_eq_min (x m : UInt16) : (if x < m then x else m) = min m x := by
  have hmin : min m x = if m ≤ x then m else x := rfl
  rw [hmin]
  by_cases h : x < m
  · rw [if_pos h, if_neg (UInt16.not_le.mpr h)]
  · rw [if_neg h, if_pos (UInt16.not_lt.mp h)]

/-- The sentinel is the largest stack pointer there is, so the first sample replaces it. -/
theorem ite_lt_noStackMark (x : UInt16) : (if x < noStackMark then x else noStackMark) = x := by
  split
  · rfl
  · next h =>
    have hle : noStackMark.toNat ≤ x.toNat := UInt16.not_lt.mp h
    have hword := x.toNat_lt
    have htop : noStackMark.toNat = 65535 := rfl
    exact UInt16.toNat_inj.mp (by omega)

/-! ## Reading a history -/

def Event.resetsMark : Event → Bool
  | .issued .resetStackWatermark _ => true
  | _ => false

/-- Whether an event registers a range. -/
def Event.watches (range : UInt16 × UInt16) : Event → Bool
  | .issued (.watchStack low high) _ => (low, high) == range
  | _ => false

/-- Whether an event clears the watch on a range. -/
def Event.clearsWatch (range : UInt16 × UInt16) : Event → Bool
  | .issued (.clearStack low high) _ => (low, high) == range
  | _ => false

/-- The stack pointers sampled since the last event that satisfies `p`, all when there is none. -/
def pointersSince (p : Event → Bool) (events : List Event) : List UInt16 :=
  (samplesOf (events.rtakeWhile fun e => !p e)).map Sample.sp

/-- The part of a history from the first registration of a range on. -/
def sinceWatched (range : UInt16 × UInt16) (events : List Event) : List Event :=
  events.dropWhile fun e => !e.watches range

/-- Whether a stack pointer is inside a range. -/
def inRange (range : UInt16 × UInt16) (ptr : UInt16) : Bool :=
  decide (range.1 ≤ ptr) && decide (ptr ≤ range.2)

/--
The stack pointers that the watch on a range answers for: those inside the range, sampled since
its first registration and since it was last cleared.
-/
def pointersWatched (range : UInt16 × UInt16) (events : List Event) : List UInt16 :=
  (pointersSince (Event.clearsWatch range) (sinceWatched range events)).filter (inRange range)

theorem pointersSince_concat_of_pos {p : Event → Bool} {events : List Event} {e : Event}
    (h : p e = true) : pointersSince p (events ++ [e]) = [] := by
  unfold pointersSince
  rw [List.rtakeWhile_concat, if_neg (by simp [h])]
  rfl

theorem pointersSince_concat_issued {p : Event → Bool} {events : List Event} {op : Op}
    {pc : UInt32} (h : p (.issued op pc) = false) :
    pointersSince p (events ++ [.issued op pc]) = pointersSince p events := by
  unfold pointersSince samplesOf
  rw [List.rtakeWhile_concat, if_pos (by simp [h]), List.filterMap_append]
  simp [Event.sample?]

theorem pointersSince_concat_sampled {p : Event → Bool} {events : List Event} {s : Sample}
    (h : p (.sampled s) = false) :
    pointersSince p (events ++ [.sampled s]) = pointersSince p events ++ [s.sp] := by
  unfold pointersSince samplesOf
  rw [List.rtakeWhile_concat, if_pos (by simp [h]), List.filterMap_append]
  simp [Event.sample?]

/-! ## The watermark -/

/-- **The watermark after any events**, from one that has been reset. -/
theorem foldl_seeMark (events : List Event) :
    events.foldl seeMark noStackMark
      = (pointersSince Event.resetsMark events).min?.getD noStackMark := by
  induction events using List.reverseRecOn with
  | nil => rfl
  | append_singleton events e ih =>
    rw [List.foldl_append, ih, List.foldl_cons, List.foldl_nil]
    cases e with
    | sampled s =>
      rw [pointersSince_concat_sampled rfl, min?_concat, Option.getD_some]
      cases (pointersSince Event.resetsMark events).min? with
      | none => exact ite_lt_noStackMark s.sp
      | some m => exact ite_lt_eq_min s.sp m
    | issued op pc =>
      cases h : (Event.issued op pc).resetsMark with
      | true =>
        rw [pointersSince_concat_of_pos h]
        cases op <;> first | rfl | cases h
      | false =>
        rw [pointersSince_concat_issued h]
        cases op <;> first | rfl | cases h

/-! ## One watch -/

/-- The watch on a range that has seen these stack pointers inside it. -/
def watchAfter (range : UInt16 × UInt16) (ptrs : List UInt16) : StackWatch where
  low := range.1
  high := range.2
  myLowest := ptrs.min?.getD noMark
  entered := !ptrs.isEmpty

theorem sample_watchAfter_of_inside {range : UInt16 × UInt16} {ptr : UInt16}
    (h : inRange range ptr = true) (ptrs : List UInt16) :
    (watchAfter range ptrs).sample ptr = watchAfter range (ptrs ++ [ptr]) := by
  have hin : (decide ((watchAfter range ptrs).low ≤ ptr)
      && decide (ptr ≤ (watchAfter range ptrs).high)) = true := h
  simp only [StackWatch.sample, hin, Bool.not_true, Bool.false_eq_true, if_false]
  unfold watchAfter
  rw [min?_concat]
  cases hm : ptrs.min? with
  | none =>
    obtain rfl : ptrs = [] := List.min?_eq_none_iff.mp hm
    rfl
  | some m =>
    have hne : ptrs ≠ [] := by rintro rfl; cases hm
    simp [hne, ite_lt_eq_min]

theorem sample_watchAfter_of_outside {range : UInt16 × UInt16} {ptr : UInt16}
    (h : inRange range ptr = false) (ptrs : List UInt16) :
    (watchAfter range ptrs).sample ptr = watchAfter range ptrs := by
  have hout : (decide ((watchAfter range ptrs).low ≤ ptr)
      && decide (ptr ≤ (watchAfter range ptrs).high)) = false := h
  simp only [StackWatch.sample, hout, Bool.not_false, if_true]

/-- What a watch reports about the stack pointers it answers for. -/
structure StackWatch.Exact (w : StackWatch) (ptrs : List UInt16) : Prop where
  entered : w.entered = true ↔ ptrs ≠ []
  lowest : w.lowest = ptrs.min?.getD 0
  deepest : w.deepestBytes.toNat = (ptrs.min?.map fun m => w.high.toNat - m.toNat).getD 0
  bounded : w.deepestBytes.toNat ≤ w.high.toNat - w.low.toNat

theorem exact_watchAfter {range : UInt16 × UInt16} {ptrs : List UInt16}
    (h : ∀ ptr ∈ ptrs, range.1 ≤ ptr ∧ ptr ≤ range.2) :
    (watchAfter range ptrs).Exact ptrs := by
  cases hm : ptrs.min? with
  | none =>
    obtain rfl : ptrs = [] := List.min?_eq_none_iff.mp hm
    exact ⟨by simp [watchAfter], rfl, rfl, Nat.zero_le _⟩
  | some m =>
    have hmem : m ∈ ptrs := (List.min?_eq_some_iff.mp hm).1
    obtain ⟨hlow, hhigh⟩ := h m hmem
    have hne : ptrs ≠ [] := List.ne_nil_of_mem hmem
    have hdeep : (watchAfter range ptrs).deepestBytes.toNat = range.2.toNat - m.toNat := by
      unfold StackWatch.deepestBytes watchAfter
      simp only [hm, Option.getD_some, List.isEmpty_eq_false_iff.mpr hne, Bool.not_false, if_true]
      exact UInt16.toNat_sub_of_le _ _ hhigh
    refine ⟨by simp [watchAfter, hne], ?_, ?_, ?_⟩
    · simp [StackWatch.lowest, watchAfter, hm, hne]
    · rw [hdeep, hm]
      rfl
    · rw [hdeep]
      have hlow' : range.1.toNat ≤ m.toNat := hlow
      exact Nat.sub_le_sub_left hlow' _

/-! ## The watch on a range -/

theorem foldl_seeWatch_none {range : UInt16 × UInt16} : ∀ {events : List Event},
    (∀ e ∈ events, e.watches range = false) → events.foldl (seeWatch range) none = none
  | [], _ => rfl
  | e :: events, h => by
    have he : seeWatch range none e = none := by
      have hw := h e List.mem_cons_self
      cases e with
      | sampled s => rfl
      | issued op pc =>
        cases op with
        | watchStack low high =>
          have hne : (low, high) ≠ range := by simpa [Event.watches] using hw
          exact if_neg hne
        | clearStack low high =>
          show (if (low, high) = range then _ else _) = none
          split <;> rfl
        | _ => rfl
    rw [List.foldl_cons, he]
    exact foldl_seeWatch_none fun e he => h e (List.mem_cons_of_mem _ he)

/-- One more event: a sample is seen, a clear starts over, and nothing else is told to the watch. -/
theorem seeWatch_watchAfter (range : UInt16 × UInt16) (events : List Event) (e : Event) :
    seeWatch range (some (watchAfter range
        ((pointersSince (Event.clearsWatch range) events).filter (inRange range)))) e
      = some (watchAfter range
          ((pointersSince (Event.clearsWatch range) (events ++ [e])).filter (inRange range))) := by
  cases e with
  | sampled s =>
    rw [pointersSince_concat_sampled rfl, List.filter_append]
    refine congrArg some ?_
    cases hin : inRange range s.sp with
    | true =>
      rw [List.filter_cons_of_pos hin, List.filter_nil]
      exact sample_watchAfter_of_inside hin _
    | false =>
      rw [List.filter_cons_of_neg (by simp [hin]), List.filter_nil, List.append_nil]
      exact sample_watchAfter_of_outside hin _
  | issued op pc =>
    cases hc : (Event.issued op pc).clearsWatch range with
    | true =>
      rw [pointersSince_concat_of_pos hc]
      cases op with
      | clearStack low high =>
        obtain rfl : (low, high) = range := by simpa [Event.clearsWatch] using hc
        exact if_pos rfl
      | _ => cases hc
    | false =>
      rw [pointersSince_concat_issued hc]
      cases op with
      | clearStack low high =>
        have hne : (low, high) ≠ range := by simpa [Event.clearsWatch] using hc
        exact if_neg hne
      | watchStack low high =>
        show (if (low, high) = range then _ else _) = _
        split <;> rfl
      | _ => rfl

/-- From its registration on, the watch has seen the pointers inside its range. -/
theorem foldl_seeWatch_some {range : UInt16 × UInt16} {e : Event} (he : e.watches range = true)
    (events : List Event) :
    (e :: events).foldl (seeWatch range) none
      = some (watchAfter range
          ((pointersSince (Event.clearsWatch range) (e :: events)).filter (inRange range))) := by
  induction events using List.reverseRecOn with
  | nil =>
    cases e with
    | sampled s => cases he
    | issued op pc =>
      cases op with
      | watchStack low high =>
        obtain rfl : (low, high) = range := by simpa [Event.watches] using he
        rw [← List.nil_append [Event.issued _ _], pointersSince_concat_issued rfl]
        exact if_pos rfl
      | _ => cases he
  | append_singleton events e' ih =>
    rw [← List.cons_append, List.foldl_append, ih, List.foldl_cons, List.foldl_nil]
    exact seeWatch_watchAfter range (e :: events) e'

/-- **The watch on a range after any events**, from when there was none. -/
theorem foldl_seeWatch (range : UInt16 × UInt16) (events : List Event) :
    events.foldl (seeWatch range) none
      = if (sinceWatched range events).isEmpty then none
        else some (watchAfter range (pointersWatched range events)) := by
  have hbefore : ∀ e ∈ events.takeWhile (fun e => !e.watches range), e.watches range = false :=
    fun e he => by simpa using List.mem_takeWhile_imp he
  have hsplit : events.foldl (seeWatch range) none
      = (sinceWatched range events).foldl (seeWatch range) none := by
    conv_lhs => rw [← List.takeWhile_append_dropWhile (p := fun e => !e.watches range) (l := events)]
    rw [List.foldl_append, foldl_seeWatch_none hbefore]
    rfl
  rw [hsplit]
  unfold pointersWatched
  cases hs : sinceWatched range events with
  | nil => rfl
  | cons e rest =>
    have he : e.watches range = true := by
      have hhead := List.head?_dropWhile_not (fun e : Event => !e.watches range) events
      unfold sinceWatched at hs
      rw [hs] at hhead
      simpa using hhead
    rw [foldl_seeWatch_some he]
    rfl

/-! ## The table of watches -/

/-- What an event does to the ranges that are watched. -/
def seeRanges : List (UInt16 × UInt16) → Event → List (UInt16 × UInt16)
  | ranges, .issued (.watchStack low high) _ =>
    if (low, high) ∈ ranges then ranges else ranges ++ [(low, high)]
  | ranges, _ => ranges

theorem ranges_watchStack (m : Mcu ι) (low high : UInt16) :
    (m.watchStack low high).stackWatches.map StackWatch.range
      = if (low, high) ∈ m.stackWatches.map StackWatch.range
        then m.stackWatches.map StackWatch.range
        else m.stackWatches.map StackWatch.range ++ [(low, high)] := by
  have hany : m.stackWatches.any (fun w => low == w.low && high == w.high) = true
      ↔ (low, high) ∈ m.stackWatches.map StackWatch.range := by
    simp only [List.any_eq_true, Bool.and_eq_true, beq_iff_eq, List.mem_map, StackWatch.range,
      Prod.mk.injEq, eq_comm (a := low), eq_comm (a := high)]
  unfold Mcu.watchStack
  by_cases h : (low, high) ∈ m.stackWatches.map StackWatch.range
  · rw [if_pos (hany.mpr h), if_pos h]
  · rw [if_neg (fun hc => h (hany.mp hc)), if_neg h]
    exact List.map_append

/-- An update that keeps every range keeps the list of them. -/
theorem map_range_map {f : StackWatch → StackWatch} (hf : ∀ w, (f w).range = w.range)
    (ws : List StackWatch) : (ws.map f).map StackWatch.range = ws.map StackWatch.range := by
  rw [List.map_map]
  exact List.map_congr_left fun w _ => hf w

/-- The ranges that are watched. -/
def rangesObserver (sim : Simavr ι) : Observer sim (List (UInt16 × UInt16)) where
  view := fun m => m.stackWatches.map StackWatch.range
  see := fun _ => seeRanges
  view_start := fun _ _ => rfl
  view_tick := fun m => map_range_map (fun w => StackWatch.range_sample _ w) m.stackWatches
  see_steps := by
    rintro prog ranges op pc hs
    cases op <;> first | rfl | cases hs
  view_exec := by
    intro m op hs
    cases op with
    | trace symbol =>
      show (m.trace symbol).stackWatches.map _ = m.stackWatches.map _
      unfold Mcu.trace
      split <;> rfl
    | watchStack low high => exact ranges_watchStack m low high
    | clearStack low high =>
      refine map_range_map (fun w => ?_) m.stackWatches
      split <;> simp
    | call symbol cycleBudget => cases hs
    | run cycles => cases hs
    | runUntil symbol cycleBudget => cases hs
    | _ => rfl

theorem foldl_seeRanges_nodup (events : List Event) : (events.foldl seeRanges []).Nodup := by
  induction events using List.reverseRecOn with
  | nil => exact List.nodup_nil
  | append_singleton events e ih =>
    rw [List.foldl_append, List.foldl_cons, List.foldl_nil]
    cases e with
    | sampled s => exact ih
    | issued op pc =>
      cases op with
      | watchStack low high =>
        show (if (low, high) ∈ events.foldl seeRanges [] then events.foldl seeRanges []
          else events.foldl seeRanges [] ++ [(low, high)]).Nodup
        by_cases h : (low, high) ∈ events.foldl seeRanges []
        · rw [if_pos h]
          exact ih
        · rw [if_neg h]
          refine List.nodup_append.mpr ⟨ih, List.nodup_singleton _, ?_⟩
          rintro a ha b hb rfl
          rw [List.mem_singleton] at hb
          exact h (hb ▸ ha)
      | _ => exact ih

/-- With no range watched twice, every watch is the one handed out for its range. -/
theorem stackWatch_of_mem {m : Mcu ι} (h : (m.stackWatches.map StackWatch.range).Nodup)
    {w : StackWatch} (hw : w ∈ m.stackWatches) : m.stackWatch w.range = some w := by
  unfold Mcu.stackWatch
  obtain ⟨before, after, hsplit⟩ := List.append_of_mem hw
  rw [hsplit] at h ⊢
  rw [List.map_append, List.map_cons, List.nodup_append] at h
  have hbefore : before.find? (fun w' => decide (w'.range = w.range)) = none := by
    rw [List.find?_eq_none]
    intro w' hw' heq
    exact h.2.2 _ (List.mem_map_of_mem hw') _ List.mem_cons_self (by simpa using heq)
  rw [List.find?_append, hbefore, Option.none_or, List.find?_cons_of_pos (by simp)]

/-! ## Runs -/

/-- What the stack marks of a machine say about the history behind it. -/
structure Mcu.StackMarksExact (m : Mcu ι) (events : List Event) : Prop where
  watermark : m.lowestStackPtr = (pointersSince Event.resetsMark events).min?.getD noStackMark
  unique : (m.stackWatches.map StackWatch.range).Nodup
  watched : ∀ range, (∃ e ∈ events, e.watches range = true) → ∃ w ∈ m.stackWatches, w.range = range
  exact : ∀ w ∈ m.stackWatches, w.Exact (pointersWatched w.range events)
  undisturbed : ∀ low high, ∀ w ∈ m.stackWatches, w ∈ (m.watchStack low high).stackWatches

theorem mem_watchStack (m : Mcu ι) (low high : UInt16) {w : StackWatch}
    (hw : w ∈ m.stackWatches) : w ∈ (m.watchStack low high).stackWatches := by
  unfold Mcu.watchStack
  split
  · exact hw
  · exact List.mem_append_left _ hw

theorem sinceWatched_isEmpty_of_mem {range : UInt16 × UInt16} {events : List Event} {e : Event}
    (he : e ∈ events) (hw : e.watches range = true) :
    (sinceWatched range events).isEmpty = false := by
  rw [List.isEmpty_eq_false_iff]
  intro hnil
  have hall := List.dropWhile_eq_nil_iff.mp hnil e he
  simp [hw] at hall

/--
**Stack watermarks are exact minima**, over any run of a machine that starts with nothing
recorded: the watermark since it was last reset, each watch since its range was first registered
and since it was last cleared, and no range has two watches.
-/
theorem stackMarks_exact (sim : Simavr ι) (prog : Program) (clockHz : UInt32) (c : Core ι)
    (ops : List Op) :
    (runOps sim (Mcu.ofProgram prog clockHz c) ops).StackMarksExact (history sim prog c ops) := by
  have hmark : (runOps sim (Mcu.ofProgram prog clockHz c) ops).lowestStackPtr
      = (history sim prog c ops).foldl seeMark noStackMark :=
    (markObserver sim).view_runOps (Mcu.ofProgram prog clockHz c) ops
  have hranges : (runOps sim (Mcu.ofProgram prog clockHz c) ops).stackWatches.map StackWatch.range
      = (history sim prog c ops).foldl seeRanges [] :=
    (rangesObserver sim).view_runOps (Mcu.ofProgram prog clockHz c) ops
  have hwatch : ∀ range, (runOps sim (Mcu.ofProgram prog clockHz c) ops).stackWatch range
      = (history sim prog c ops).foldl (seeWatch range) none := fun range =>
    (watchObserver sim range).view_runOps (Mcu.ofProgram prog clockHz c) ops
  have hunique : ((runOps sim (Mcu.ofProgram prog clockHz c) ops).stackWatches.map
      StackWatch.range).Nodup := by
    rw [hranges]
    exact foldl_seeRanges_nodup _
  refine ⟨?_, hunique, ?_, ?_, ?_⟩
  · rw [hmark, foldl_seeMark]
  · rintro range ⟨e, he, hw⟩
    have hsome := hwatch range
    rw [foldl_seeWatch, sinceWatched_isEmpty_of_mem he hw, if_neg Bool.false_ne_true] at hsome
    exact ⟨_, List.mem_of_find?_eq_some hsome, by simpa using List.find?_some hsome⟩
  · intro w hw
    have hsome := hwatch w.range
    rw [stackWatch_of_mem hunique hw, foldl_seeWatch] at hsome
    split at hsome
    · cases hsome
    · obtain ⟨range, hrange⟩ : ∃ range, w.range = range := ⟨_, rfl⟩
      rw [hrange] at hsome ⊢
      cases hsome
      refine exact_watchAfter fun ptr hptr => ?_
      have hin := (List.mem_filter.mp hptr).2
      simpa [inRange] using hin
  · exact fun low high w hw => mem_watchStack _ low high hw

end Avrsim
