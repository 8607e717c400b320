import Avrsim.Properties.CallCost
import Avrsim.Properties.Growth
import Avrsim.Properties.WellFormed

/-!
# Two instruments on one thing

Some things can be measured in two ways. Where they can, the two agree.

* `gap_eq_between_arrivals` — how far apart two visits began, by the trace and by two waits
* `watermark_agrees` — how deep the stack went, by the watermark and by a watch
-/

namespace Avrsim

open Infra.Loop

variable {ι : Type}

/-! ## Waits and visits -/

/-- In the next `n` instructions control gets into the function at its first instruction only. -/
def EnteredAtTop (sim : Simavr ι) (item : Traced) (c : Core ι) (n : Nat) : Prop :=
  ∀ j < n, item.contains (coreAt sim c j).pc = false →
    item.contains (coreAt sim c (j + 1)).pc = true → (coreAt sim c (j + 1)).pc = item.begin

/-- How many instructions `runUntil` executes. -/
def untilSteps (sim : Simavr ι) (symbol : String) (budget : UInt64) (m : Mcu ι) : Nat :=
  (untilLoop (m.address symbol) budget m.avr.wake).steps sim

/-- A sample outside changes nothing when the one before it was outside too. -/
theorem Traced.sample_of_outside {item : Traced} {pc : UInt32} (cycle : UInt64)
    (hout : item.inside = false) (hpc : item.contains pc = false) :
    item.sample pc cycle = item := by
  have hsame : item.sample pc cycle = { item with inside := false } := by
    simp [Traced.sample, hout, hpc]
  rw [hsame, ← hout]

theorem Traced.sampleUpTo_of_stays_outside {sim : Simavr ι} {c : Core ι} {item : Traced}
    (hout : item.inside = false) : ∀ {k : Nat},
      (∀ j < k, item.contains (coreAt sim c (j + 1)).pc = false) → item.sampleUpTo sim c k = item
  | 0, _ => rfl
  | k + 1, h => by
    have ih : item.sampleUpTo sim c k = item :=
      Traced.sampleUpTo_of_stays_outside hout fun j hj => h j (by omega)
    rw [Traced.sampleUpTo, ih]
    exact Traced.sample_of_outside _ hout (h k (by omega))

/-- Until it first reaches the first instruction, control stays outside. -/
theorem outside_of_firstReaches {sim : Simavr ι} {item : Traced} {c : Core ι} {k : Nat}
    (htop : EnteredAtTop sim item c k) (hc : item.contains c.pc = false)
    (hfirst : FirstReaches sim item.begin c k) :
    ∀ j < k, item.contains (coreAt sim c j).pc = false := by
  intro j
  induction j with
  | zero => exact fun _ => hc
  | succ j ih =>
    intro hj
    by_contra hin
    rw [Bool.not_eq_false] at hin
    exact hfirst.2 (j + 1) hj (htop j (by omega) (ih (by omega)) hin)

/-- The entry of a function that is traced, is not empty and control is not in. -/
structure Traced.Outside (item : Traced) (pc : UInt32) : Prop where
  nonempty : item.begin < item.end
  inside : item.inside = false
  outside : item.contains pc = false

/-- **An arrival opens a visit**, at the cycle the arrival is reported for. -/
theorem arrival_opens_visit {sim : Simavr ι} {m : Mcu ι} {symbol : String} {budget : UInt64}
    {item : Traced} (htraced : m.traced[symbol]? = some item)
    (hbegin : item.begin = m.address symbol)
    (htop : EnteredAtTop sim item m.avr.wake (untilSteps sim symbol budget m))
    (hout : item.Outside m.avr.pc)
    (hret : (m.runUntil sim symbol budget).1.returned = true) :
    (m.runUntil sim symbol budget).2.traced[symbol]?
        = some (item.entered (m.runUntil sim symbol budget).2.cycle)
      ∧ (m.runUntil sim symbol budget).2.cycle
          = m.cycle + (m.runUntil sim symbol budget).1.cycles := by
  have hdef : m.address symbol ≠ noAddress := by
    intro hundef
    rw [Mcu.runUntil_of_undefined sim budget hundef] at hret
    cases hret
  rw [Mcu.runUntil_eq sim budget hdef] at hret ⊢
  unfold untilSteps at htop
  obtain ⟨k, hk⟩ : ∃ k, (untilLoop (m.address symbol) budget m.avr.wake).steps sim = k := ⟨_, rfl⟩
  have hfirst := firstReaches_of_returned hret
  rw [hk, ← hbegin] at hfirst
  rw [hk] at htop
  have hwake : item.contains m.avr.wake.pc = false := hout.outside
  have hbefore := outside_of_firstReaches htop hwake hfirst
  have hin : item.contains item.begin = true := by
    simp [Traced.contains, hout.nonempty]
  -- control has moved, so there is a sample at the arrival
  obtain ⟨k, rfl⟩ : ∃ k', k = k' + 1 := by
    cases k with
    | zero =>
      have hpc : m.avr.pc = item.begin := hfirst.1.2
      have hcontra := hout.outside
      rw [hpc, hin] at hcontra
      cases hcontra
    | succ k' => exact ⟨k', rfl⟩
  have hcycle : (m.runLoop sim (untilLoop (m.address symbol) budget m.avr.wake)).cycle
      = (coreAt sim m.avr.wake (k + 1)).cycle := by
    show (m.runLoop sim _).avr.cycle = _
    rw [Mcu.runLoop_avr, StepLoop.final_eq_coreAt, hk]
    rfl
  constructor
  · have hlast : (coreAt sim m.avr.wake (k + 1)).pc = item.begin := hfirst.1.2
    rw [hcycle, Mcu.runLoop_eq_iterate, traced_iterate_tick, hk]
    show m.traced[symbol]?.map (fun item => item.sampleUpTo sim m.avr.wake (k + 1)) = _
    rw [htraced, Option.map_some, Traced.sampleUpTo,
      Traced.sampleUpTo_of_stays_outside hout.inside fun j hj => hbefore (j + 1) (by omega), hlast]
    simp [Traced.sample, Traced.entered, hin, hout.inside]
  · rw [hcycle, cycles_untilLoop, hk]
    show _ = m.avr.wake.cycle + _
    grind

/--
**Two visits began as far apart as two waits ended.** A function that is traced is waited for; then
anything is done that clears nothing and in which no other visit begins; then the function is waited
for again. If control is outside of the function at the start of each wait, and gets into it at its
first instruction only while the wait goes on, the gap its log shows between the two visits is what
the cycle counter shows between the two arrivals.
-/
theorem gap_eq_between_arrivals {sim : Simavr ι} {m m₂ : Mcu ι} {symbol : String}
    {budget budget' : UInt64} {item item₂ : Traced} {cmds : List Command}
    (htraced : m.traced[symbol]? = some item) (hbegin : item.begin = m.address symbol)
    (htop : EnteredAtTop sim item m.avr.wake (untilSteps sim symbol budget m))
    (hout : item.Outside m.avr.pc)
    (hret : (m.runUntil sim symbol budget).1.returned = true)
    (hsession : session sim (m.runUntil sim symbol budget).2 cmds = .ok m₂)
    (hclears : ∀ cmd ∈ cmds, cmd.clears = false) (htraced₂ : m₂.traced[symbol]? = some item₂)
    (hcount : item₂.log.count = item.log.count + 1)
    (htop₂ : EnteredAtTop sim item₂ m₂.avr.wake (untilSteps sim symbol budget' m₂))
    (hout₂ : item₂.Outside m₂.avr.pc)
    (hret₂ : (m₂.runUntil sim symbol budget').1.returned = true) :
    ∃ item₃, (m₂.runUntil sim symbol budget').2.traced[symbol]? = some item₃
      ∧ item₃.log.gap item.log.count (item.log.count + 1)
        = (m₂.runUntil sim symbol budget').2.cycle - (m.runUntil sim symbol budget).2.cycle := by
  obtain ⟨hentered, -⟩ := arrival_opens_visit htraced hbegin htop hout hret
  have hgrows := grows_of_session hsession hclears
  obtain ⟨item', hitem', hlog⟩ := hgrows.traced symbol _ hentered
  obtain rfl : item₂ = item' := Option.some.inj (htraced₂.symm.trans hitem')
  have hprog : m₂.prog = m.prog := by
    rw [hgrows.prog]
    exact exec_prog sim m (.runUntil symbol budget)
  have hbegin₂ : item₂.begin = m₂.address symbol := by
    rw [hlog.begin]
    show item.begin = m₂.prog.address symbol
    rw [hprog]
    exact hbegin
  obtain ⟨hentered₂, -⟩ := arrival_opens_visit htraced₂ hbegin₂ htop₂ hout₂ hret₂
  refine ⟨_, hentered₂, ?_⟩
  -- the first of the two visits is still where it was, with its entry
  obtain ⟨v, hv, hsame⟩ := hlog.log item.log.count
    ⟨(m.runUntil sim symbol budget).2.cycle, (m.runUntil sim symbol budget).2.cycle, 0, false⟩
    (by simp [Traced.entered, Trace.count])
  have hlt : item.log.count < item₂.log.visits.length := (List.getElem?_eq_some_iff.mp hv).1
  have hfirst : (item₂.entered (m₂.runUntil sim symbol budget').2.cycle).log.visits[
      item.log.count]? = some v := by
    rw [Traced.entered, Trace.enter_visits, List.getElem?_append_left hlt, hv]
  have hsecond : (item₂.entered (m₂.runUntil sim symbol budget').2.cycle).log.visits[
      item.log.count + 1]?
        = some ⟨(m₂.runUntil sim symbol budget').2.cycle,
            (m₂.runUntil sim symbol budget').2.cycle, 0, false⟩ := by
    rw [Traced.entered, Trace.enter_visits, ← hcount]
    exact List.getElem?_concat_length
  simp only [Trace.gap, hfirst, hsecond, hsame.entry]

/-- Two functions that take turns, the second of them traced. -/
def turnsTraced : Mcu Unit := Isa.turns.trace "f"

/-- It has been waited for, and left again. -/
def turnsBack : Mcu Unit :=
  ((turnsTraced.runUntil Isa.simavr "f" 10).2.run Isa.simavr 3).2

/-- The second function is waited for twice: it begins after 2 cycles, and again after 7. -/
theorem gap_eq_between_arrivals_turns :
    ∃ item, (turnsBack.runUntil Isa.simavr "f" 10).2.traced["f"]? = some item
      ∧ item.log.gap 0 1 = 5 := by
  have htraced : turnsTraced.traced["f"]? = some ⟨4, 8, false, ⟨[]⟩⟩ := by decide +kernel
  have htraced₂ : turnsBack.traced["f"]? = some ⟨4, 8, false, ⟨[⟨2, 5, 3, true⟩]⟩⟩ := by
    decide +kernel
  have htop : EnteredAtTop Isa.simavr ⟨4, 8, false, ⟨[]⟩⟩ turnsTraced.avr.wake
      (untilSteps Isa.simavr "f" 10 turnsTraced) := by
    unfold EnteredAtTop
    decide +kernel
  have htop₂ : EnteredAtTop Isa.simavr ⟨4, 8, false, ⟨[⟨2, 5, 3, true⟩]⟩⟩ turnsBack.avr.wake
      (untilSteps Isa.simavr "f" 10 turnsBack) := by
    unfold EnteredAtTop
    decide +kernel
  have hsession : session Isa.simavr (turnsTraced.runUntil Isa.simavr "f" 10).2 [.op (.run 3)]
      = .ok turnsBack := rfl
  obtain ⟨item, hitem, hgap⟩ := gap_eq_between_arrivals htraced (by decide +kernel) htop
    ⟨by decide, rfl, by decide +kernel⟩ (by decide +kernel) hsession (by decide) htraced₂ rfl htop₂
    ⟨by decide, rfl, by decide +kernel⟩ (by decide +kernel)
  have hcycles : (turnsBack.runUntil Isa.simavr "f" 10).2.cycle
      - (turnsTraced.runUntil Isa.simavr "f" 10).2.cycle = 5 := by decide +kernel
  exact ⟨item, hitem, hgap.trans hcycles⟩

/-! ## Watermarks and watches -/

/--
The watch on a range has its mark no deeper than the watermark; and has it there, when that is where
the watermark is.
-/
def MarksAgree (range : UInt16 × UInt16) (mark : UInt16) (w : StackWatch) : Prop :=
  w.range = range ∧ (w.entered = true → mark ≤ w.myLowest)
    ∧ (range.1 ≤ mark → mark ≤ range.2 → mark ≠ noStackMark →
        w.entered = true ∧ w.myLowest = mark)

/-- A sample keeps the two together. -/
theorem MarksAgree.sample {range : UInt16 × UInt16} {mark : UInt16} {w : StackWatch}
    (h : MarksAgree range mark w) (ptr : UInt16) :
    MarksAgree range (if ptr < mark then ptr else mark) (w.sample ptr) := by
  obtain ⟨hrange, habove, hthere⟩ := h
  subst hrange
  refine ⟨StackWatch.range_sample ptr w, ?_⟩
  by_cases hin : w.low ≤ ptr ∧ ptr ≤ w.high
  · rw [StackWatch.sample_of_mem hin]
    simp only [StackWatch.range] at hthere ⊢
    cases he : w.entered with
    | false =>
      simp only [he, Bool.not_false, Bool.true_or, if_true] at hthere ⊢
      constructor
      · intro _
        split
        · exact UInt16.le_refl ptr
        · next hge => exact UInt16.not_lt.mp hge
      · split
        · exact fun _ _ _ => ⟨trivial, rfl⟩
        · intro hlow hhigh hne
          exact absurd (hthere hlow hhigh hne).1 (by simp)
    | true =>
      have hle := habove he
      simp only [he, Bool.not_true, Bool.false_or, decide_eq_true_eq, true_and] at hthere ⊢
      constructor
      · intro _
        split <;> split <;> grind
      · split <;> split <;> grind
  · rw [StackWatch.sample_of_not_mem hin]
    simp only [StackWatch.range] at hthere ⊢
    split
    · next hlt =>
      constructor
      · intro he
        exact UInt16.le_trans (UInt16.le_of_lt hlt) (habove he)
      · intro hlow hhigh
        exact absurd ⟨hlow, hhigh⟩ hin
    · exact ⟨habove, hthere⟩

/-- The watch of a machine agrees with its watermark. -/
def Mcu.MarksAgree (range : UInt16 × UInt16) (m : Mcu ι) : Prop :=
  ∃ w, m.stackWatch range = some w ∧ Avrsim.MarksAgree range m.lowestStackPtr w

theorem Mcu.MarksAgree.tick {range : UInt16 × UInt16} {m : Mcu ι} (h : m.MarksAgree range)
    (sim : Simavr ι) : (m.tick sim).MarksAgree range := by
  obtain ⟨w, hw, hagree⟩ := h
  have hwatch : (m.tick sim).stackWatch range
      = (m.stackWatch range).map (StackWatch.sample (sim.next m.avr).sp) :=
    (watchObserver sim range).view_tick m
  refine ⟨w.sample (sim.next m.avr).sp, ?_, hagree.sample _⟩
  rw [hwatch, hw, Option.map_some]

/-- An operation keeps the two together, unless it clears one of them. -/
theorem Mcu.MarksAgree.exec {low high : UInt16} {m : Mcu ι} (h : m.MarksAgree (low, high))
    (sim : Simavr ι) {op : Op} (hmark : op ≠ .resetStackWatermark)
    (hclear : op ≠ .clearStack low high) : (exec sim m op).2.MarksAgree (low, high) := by
  cases hl : m.prog.stepLoop m.avr op with
  | some l =>
    rw [exec_snd_of_stepLoop sim hl]
    exact stepWhile_induction (P := Mcu.MarksAgree (low, high)) (fun _ h' => h'.tick sim) l.cap _ h
  | none =>
    cases hs : op.steps with
    | true =>
      rw [exec_of_stepLoop_none sim hs hl]
      exact h
    | false =>
      obtain ⟨w, hw, hagree⟩ := h
      have hwatch : (Avrsim.exec sim m op).2.stackWatch (low, high)
          = seeWatch (low, high) (m.stackWatch (low, high)) (.issued op m.avr.pc) :=
        (watchObserver sim (low, high)).view_exec m op hs
      have hlowest : (Avrsim.exec sim m op).2.lowestStackPtr
          = seeMark m.lowestStackPtr (.issued op m.avr.pc) :=
        (markObserver sim).view_exec m op hs
      refine ⟨w, ?_, ?_⟩
      · rw [hwatch, hw]
        cases op with
        | watchStack low' high' => simp [seeWatch]
        | clearStack low' high' =>
          have hne : (low', high') ≠ (low, high) := by
            rintro heq
            cases heq
            exact hclear rfl
          simp [seeWatch, hne]
        | _ => rfl
      · rw [hlowest]
        cases op with
        | resetStackWatermark => exact absurd rfl hmark
        | _ => exact hagree

theorem marksAgree_session {sim : Simavr ι} {low high : UInt16} : ∀ {m m' : Mcu ι}
    {cmds : List Command}, m.MarksAgree (low, high) → session sim m cmds = .ok m' →
      .op .resetStackWatermark ∉ cmds → .op (.clearStack low high) ∉ cmds →
        m'.MarksAgree (low, high)
  | m, m', [], h, hsession, _, _ => by
    rw [session_nil] at hsession
    exact hsession ▸ h
  | m, m', cmd :: cmds, h, hsession, hmark, hclear => by
    obtain ⟨m₁, hexec, hrest⟩ := session_cons.mp hsession
    simp only [List.mem_cons, not_or] at hmark hclear
    have h₁ : m₁.MarksAgree (low, high) := by
      cases cmd with
      | op operation =>
        cases hexec
        refine h.exec sim ?_ ?_
        · exact fun heq => hmark.1 (congrArg Command.op heq.symm)
        · exact fun heq => hclear.1 (congrArg Command.op heq.symm)
      | watch port bit =>
        have hwatch : m.watch sim port bit = .ok m₁ := hexec
        unfold Mcu.watch at hwatch
        split at hwatch
        · cases hwatch
          exact h
        · split at hwatch
          · cases hwatch
            exact h
          · cases hwatch
      | drive port bit level =>
        cases hexec
        unfold Mcu.drive
        split <;> exact h
    exact marksAgree_session h₁ hrest hmark.2 hclear.2

/--
**The watermark and a watch agree.** On a machine that has sampled nothing yet a range is watched
that has not been watched before. Then its mark is never deeper than the watermark; and when there
is a watermark and it is in the range, the range has been entered and its mark is the watermark. So
it is after any session that clears neither of the two.
-/
theorem watermark_agrees {sim : Simavr ι} {m m' : Mcu ι} {low high : UInt16} {cmds : List Command}
    (hfresh : m.lowestStackPtr = noStackMark) (hnew : m.stackWatch (low, high) = none)
    (hsession : session sim (m.watchStack low high) cmds = .ok m')
    (hmark : .op .resetStackWatermark ∉ cmds) (hclear : .op (.clearStack low high) ∉ cmds) :
    ∃ w, m'.stackWatch (low, high) = some w
      ∧ (w.entered = true → m'.lowestStackPtr ≤ w.lowest)
      ∧ (low ≤ m'.lowestStackPtr → m'.lowestStackPtr ≤ high → m'.lowestStackPtr ≠ noStackMark →
          w.entered = true ∧ w.lowest = m'.lowestStackPtr) := by
  have hstart : (m.watchStack low high).MarksAgree (low, high) := by
    have hwatch := stackWatch_watchStack m (low, high) low high
    rw [if_pos rfl, hnew, Option.getD_none] at hwatch
    have hlowest : (m.watchStack low high).lowestStackPtr = noStackMark := by
      rw [← hfresh]
      unfold Mcu.watchStack
      split <;> rfl
    refine ⟨_, hwatch, rfl, ?_, ?_⟩
    · intro he
      cases he
    · rw [hlowest]
      exact fun _ _ hne => absurd rfl hne
  obtain ⟨w, hw, -, habove, hthere⟩ := marksAgree_session hstart hsession hmark hclear
  refine ⟨w, hw, ?_, ?_⟩
  · intro he
    rw [StackWatch.lowest, if_pos he]
    exact habove he
  · intro hlow hhigh hne
    obtain ⟨he, hlowest⟩ := hthere hlow hhigh hne
    rw [StackWatch.lowest, if_pos he]
    exact ⟨he, hlowest⟩

/-- A call that is watched from the top of RAM down. -/
def turnsWatched : Mcu Unit :=
  ((Isa.turns.watchStack 0x0500 0x08FF).call Isa.simavr "f" 3).2

theorem watermark_agrees_turns :
    ∃ w, turnsWatched.stackWatch (0x0500, 0x08FF) = some w ∧ w.entered = true
      ∧ w.lowest = turnsWatched.lowestStackPtr := by
  have hsession : session Isa.simavr (Isa.turns.watchStack 0x0500 0x08FF) [.op (.call "f" 3)]
      = .ok turnsWatched := rfl
  obtain ⟨w, hw, -, hthere⟩ := watermark_agrees (by decide +kernel) (by decide +kernel)
    hsession (by decide) (by decide)
  exact ⟨w, hw, hthere (by decide +kernel) (by decide +kernel) (by decide +kernel)⟩

end Avrsim
