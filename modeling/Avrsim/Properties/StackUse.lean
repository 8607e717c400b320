import Avrsim.Properties.Paint
import Avrsim.Properties.ReturnAddress
import Avrsim.Properties.StackMarks

/-!
# Two measures of one stack

A stack is measured by painting its range and counting what survives, and by watching the stack
pointer inside the range. A program that writes in the range only above its stack pointer, and keeps
the stack pointer above the bottom, never uses more by the first measure than by the second.

* `KeepsStack` — an instruction that keeps to that discipline
* `Op.spares` — an operation that leaves the paint and the watch alone
* `PaintIntact` — the invariant: what is at or below the lowest stack pointer is still paint
* `highWater_le_deepest` — the two measures after any run of such instructions
-/

namespace Avrsim

open Tool Infra.Loop

variable {ι : Type}

/-! ## The discipline -/

/-- The bytes of a region. -/
def Tool.Region.contains (region : Region) (addr : UInt16) : Prop :=
  region.low ≤ addr ∧ addr ≤ region.high

/--
An instruction writes in the region only above the stack pointer it leaves, and leaves the stack
pointer no lower than the bottom of the region.
-/
structure KeepsStack (sim : Simavr ι) (region : Region) (c : Core ι) : Prop where
  above : ∀ addr, region.contains addr → (sim.next c).data addr ≠ c.data addr →
    (sim.next c).sp < addr
  room : region.low ≤ (sim.next c).sp

/-- The cores the instructions of a run start from, oldest first. -/
def instructions (sim : Simavr ι) (prog : Program) : Core ι → List Op → List (Core ι)
  | _, [] => []
  | c, op :: ops =>
    ((prog.stepLoop c op).map fun l => (List.range (l.steps sim)).map (coreAt sim l.start)).getD []
      ++ instructions sim prog (coreAfter sim prog c op) ops

/--
An operation that writes nothing in the region before any instruction does, and starts neither the
core nor the watch over.
-/
def Op.spares (part : Part) (region : Region) : Op → Prop
  | .call _ _ => region.high.toNat + part.addressSize.toNat ≤ part.ramend.toNat
  | .reset => False
  | .setData addr _ => ¬ region.contains addr
  | .clearStack low high => (low, high) ≠ (region.low, region.high)
  | _ => True

/-! ## The invariant -/

/--
The region is watched, and every byte of it at or below the lowest stack pointer seen inside it is
still paint: every byte when there has been none.
-/
def PaintIntact (region : Region) (m : Mcu ι) : Prop :=
  ∃ w, m.stackWatch (region.low, region.high) = some w
    ∧ (w.entered = true → region.low ≤ w.myLowest ∧ w.myLowest ≤ region.high)
    ∧ ∀ addr, region.contains addr → (w.entered = true → addr ≤ w.myLowest) →
      m.avr.data addr = region.value

variable {region : Region}

/-- Paint that is neither written nor watched anew stays. -/
theorem PaintIntact.of_eq {m m' : Mcu ι} (h : PaintIntact region m)
    (hwatch : m'.stackWatch (region.low, region.high) = m.stackWatch (region.low, region.high))
    (hdata : ∀ addr, region.contains addr → m'.avr.data addr = m.avr.data addr) :
    PaintIntact region m' := by
  obtain ⟨w, hw, hbounds, hpaint⟩ := h
  refine ⟨w, hwatch.trans hw, hbounds, fun addr hin hle => ?_⟩
  rw [hdata addr hin, hpaint addr hin hle]

/-- One instruction and one sample. -/
theorem PaintIntact.tick {sim : Simavr ι} {m : Mcu ι} (h : PaintIntact region m)
    (hkeeps : KeepsStack sim region m.avr) : PaintIntact region (m.tick sim) := by
  obtain ⟨w, hw, hbounds, hpaint⟩ := h
  have hview : (m.tick sim).stackWatch (region.low, region.high)
      = (m.stackWatch (region.low, region.high)).map (StackWatch.sample (sim.next m.avr).sp) :=
    (watchObserver sim (region.low, region.high)).view_tick m
  have hrange : w.range = (region.low, region.high) := by simpa using List.find?_some hw
  obtain ⟨hlow, hhigh⟩ := Prod.mk.inj hrange
  -- what the instruction leaves alone
  have hkept : ∀ addr, region.contains addr → addr ≤ (sim.next m.avr).sp →
      (m.tick sim).avr.data addr = m.avr.data addr := by
    intro addr hin hle
    by_contra hne
    exact absurd (hkeeps.above addr hin hne) (UInt16.not_lt.mpr hle)
  rw [hw, Option.map_some] at hview
  refine ⟨_, hview, ?_⟩
  by_cases hin : (sim.next m.avr).sp ≤ region.high
  · have hsample : w.sample (sim.next m.avr).sp
        = { w with
            myLowest := if !w.entered || (sim.next m.avr).sp < w.myLowest then (sim.next m.avr).sp
              else w.myLowest
            entered := true } := by
      simp [StackWatch.sample, hlow, hhigh, hin, hkeeps.room]
    rw [hsample]
    cases hentered : w.entered with
    | false =>
      simp only [Bool.not_false, Bool.true_or, if_true]
      refine ⟨fun _ => ⟨hkeeps.room, hin⟩, fun addr haddr hle => ?_⟩
      rw [hkept addr haddr (hle trivial)]
      exact hpaint addr haddr fun h => absurd (hentered.symm.trans h) Bool.false_ne_true
    | true =>
      obtain ⟨hbottom, htop⟩ := hbounds hentered
      simp only [Bool.not_true, Bool.false_or, decide_eq_true_eq]
      split
      · next hlt =>
        refine ⟨fun _ => ⟨hkeeps.room, hin⟩, fun addr haddr hle => ?_⟩
        rw [hkept addr haddr (hle trivial)]
        exact hpaint addr haddr fun _ => UInt16.le_trans (hle trivial) (UInt16.le_of_lt hlt)
      · next hge =>
        refine ⟨fun _ => ⟨hbottom, htop⟩, fun addr haddr hle => ?_⟩
        rw [hkept addr haddr (UInt16.le_trans (hle trivial) (UInt16.not_lt.mp hge))]
        exact hpaint addr haddr fun _ => hle trivial
  · have hsample : w.sample (sim.next m.avr).sp = w := by
      simp [StackWatch.sample, hhigh, hin]
    rw [hsample]
    refine ⟨hbounds, fun addr haddr hle => ?_⟩
    rw [hkept addr haddr (UInt16.le_trans haddr.2 (UInt16.le_of_lt (UInt16.not_le.mp hin)))]
    exact hpaint addr haddr hle

/-- A loop of instructions that all keep to the discipline. -/
theorem PaintIntact.runLoop {sim : Simavr ι} {m : Mcu ι} (l : StepLoop ι)
    (hstart : PaintIntact region { m with avr := l.start })
    (hkeeps : ∀ j < l.steps sim, KeepsStack sim region (coreAt sim l.start j)) :
    PaintIntact region (m.runLoop sim l) := by
  have hall : ∀ k ≤ l.steps sim,
      PaintIntact region ((Mcu.tick sim)^[k] { m with avr := l.start }) := by
    intro k hk
    induction k with
    | zero => exact hstart
    | succ k ih =>
      rw [Function.iterate_succ_apply']
      refine (ih (by omega)).tick ?_
      rw [Mcu.iterate_tick_avr]
      exact hkeeps k (by omega)
  rw [Mcu.runLoop_eq_iterate]
  exact hall _ (Nat.le_refl _)

/-! ## Operations -/

/-- Where the region lies: in RAM, above the registers and SREG. -/
structure Tool.Region.InSram (part : Part) (region : Region) : Prop where
  above : sregAddress < region.low
  ram : region.high ≤ part.ramend

/-- A call pushes its return address above the region. -/
theorem data_enterCall_of_spares {prog : Program} (hsram : region.InSram prog.part)
    {symbol : String} {cycleBudget : UInt64}
    (hspares : (Op.call symbol cycleBudget).spares prog.part region) (entry : UInt32) (c : Core ι)
    {addr : UInt16} (hin : region.contains addr) :
    (prog.enterCall entry c).data addr = c.data addr := by
  have hroom : region.high.toNat + prog.part.addressSize.toNat ≤ prog.part.ramend.toNat := hspares
  have hram := prog.part.ramend.toNat_lt
  have habove : sregAddress.toNat < addr.toNat := Nat.lt_of_lt_of_le hsram.above hin.1
  have hhigh : addr.toNat ≤ region.high.toNat := hin.2
  have hsreg : sregAddress.toNat = 0x5F := rfl
  rw [enterCall_data]
  · refine pushUpTo_of_ne _ _ _ fun i hi heq => ?_
    have hi' : (UInt16.ofNat i).toNat = i := by
      rw [UInt16.toNat_ofNat']
      exact Nat.mod_eq_of_lt (by omega)
    have hle : UInt16.ofNat i ≤ prog.part.ramend := by
      rw [UInt16.le_iff_toNat_le, hi']
      omega
    have hnat := congrArg UInt16.toNat heq
    rw [UInt16.toNat_sub_of_le _ _ hle, hi'] at hnat
    omega
  · rintro rfl
    exact absurd habove (by decide)
  · rintro rfl
    exact absurd habove (by decide)

/-- The registers are below the region. -/
theorem data_setReg_of_lt (c : Core ι) (index value : UInt8) {addr : UInt16}
    (h : sregAddress < addr) : (c.setReg index value).data addr = c.data addr := by
  unfold Core.setReg
  split
  · next hindex =>
    refine Core.write_data_of_ne c ?_ value
    rintro rfl
    have hlt : sregAddress.toNat < index.toUInt16.toNat := h
    have hcount : index.toNat < registerCount.toNat := hindex
    have hsreg : sregAddress.toNat = 95 := rfl
    have hthirtyTwo : registerCount.toNat = 32 := rfl
    rw [UInt8.toNat_toUInt16] at hlt
    omega
  · rfl

/-- What an operation that runs no instruction writes it writes elsewhere. -/
theorem data_exec_of_spares {sim : Simavr ι} {m : Mcu ι} (hsram : region.InSram m.prog.part)
    {op : Op} (hspares : op.spares m.prog.part region) (hs : op.steps = false) {addr : UInt16}
    (hin : region.contains addr) : (exec sim m op).2.avr.data addr = m.avr.data addr := by
  have habove : sregAddress < addr := UInt16.lt_of_lt_of_le hsram.above hin.1
  cases op with
  | call symbol cycleBudget => cases hs
  | run cycles => cases hs
  | runUntil symbol cycleBudget => cases hs
  | reset => cases hspares
  | trace symbol => exact congrArg (fun c : Core ι => c.data addr) (Mcu.trace_avr m symbol)
  | watchStack low high =>
    exact congrArg (fun c : Core ι => c.data addr) (Mcu.watchStack_avr m low high)
  | setReg index value => exact data_setReg_of_lt m.avr index value habove
  | setRegPair low value =>
    exact (data_setReg_of_lt _ (low + 1) _ habove).trans (data_setReg_of_lt m.avr low _ habove)
  | setData addr' value =>
    have hne : addr ≠ addr' := fun heq => hspares (heq ▸ hin)
    show (m.setData addr' value).avr.data addr = _
    rw [data_setData, if_neg fun h => hne h.1]
  | setSreg value =>
    exact Core.write_data_of_ne m.avr (UInt16.ne_of_lt habove).symm value
  | _ => rfl

/-- Nor does it start the watch over. -/
theorem stackWatch_exec_of_spares {sim : Simavr ι} {m : Mcu ι} {op : Op}
    (hspares : op.spares m.prog.part region) (hs : op.steps = false) {w : StackWatch}
    (hw : m.stackWatch (region.low, region.high) = some w) :
    (exec sim m op).2.stackWatch (region.low, region.high) = some w := by
  have hview : (exec sim m op).2.stackWatch (region.low, region.high)
      = seeWatch (region.low, region.high) (m.stackWatch (region.low, region.high))
          (.issued op m.avr.pc) :=
    (watchObserver sim (region.low, region.high)).view_exec m op hs
  rw [hview, hw]
  cases op with
  | watchStack low high =>
    show (if (low, high) = _ then some w else some w) = some w
    rw [ite_self]
  | clearStack low high => exact if_neg hspares
  | _ => rfl

/-- One operation, and the instructions it runs. -/
theorem PaintIntact.exec {sim : Simavr ι} {m : Mcu ι} (h : PaintIntact region m)
    (hsram : region.InSram m.prog.part) {op : Op} (hspares : op.spares m.prog.part region)
    (hkeeps : ∀ c ∈ instructions sim m.prog m.avr [op], KeepsStack sim region c) :
    PaintIntact region (exec sim m op).2 := by
  cases hl : m.prog.stepLoop m.avr op with
  | some l =>
    rw [exec_snd_of_stepLoop sim hl]
    refine PaintIntact.runLoop l (h.of_eq rfl fun addr hin => ?_) fun j hj => hkeeps _ ?_
    · cases op with
      | call symbol cycleBudget =>
        simp only [Program.stepLoop] at hl
        split at hl
        · cases hl
        · cases hl
          exact data_enterCall_of_spares hsram hspares _ _ hin
      | run cycles => cases hl; rfl
      | runUntil symbol cycleBudget =>
        simp only [Program.stepLoop] at hl
        split at hl
        · cases hl
        · cases hl; rfl
      | _ => cases hl
    · simp only [instructions, hl, Option.map_some, Option.getD_some, List.append_nil]
      exact List.mem_map.mpr ⟨j, List.mem_range.mpr hj, rfl⟩
  | none =>
    cases hs : op.steps with
    | true =>
      rw [exec_of_stepLoop_none sim hs hl]
      exact h
    | false =>
      obtain ⟨w, hw, -⟩ := id h
      refine h.of_eq ?_ fun addr hin => data_exec_of_spares hsram hspares hs hin
      rw [stackWatch_exec_of_spares hspares hs hw, hw]

/-- A whole run. -/
theorem PaintIntact.runOps (sim : Simavr ι) : ∀ (ops : List Op) {m : Mcu ι},
    PaintIntact region m → region.InSram m.prog.part →
    (∀ op ∈ ops, op.spares m.prog.part region) →
    (∀ c ∈ instructions sim m.prog m.avr ops, KeepsStack sim region c) →
      PaintIntact region (runOps sim m ops)
  | [], _, h, _, _, _ => h
  | op :: ops, m, h, hsram, hspares, hkeeps => by
    have hprog : (Avrsim.exec sim m op).2.prog = m.prog := exec_prog sim m op
    have hhere := h.exec hsram (hspares op List.mem_cons_self) fun c hc => hkeeps c (by
      simp only [instructions, List.append_nil] at hc ⊢
      exact List.mem_append_left _ hc)
    rw [runOps_cons]
    refine PaintIntact.runOps sim ops hhere (hprog ▸ hsram) ?_ ?_
    · rw [hprog]
      exact fun op' hop' => hspares op' (List.mem_cons_of_mem _ hop')
    · rw [hprog, exec_avr]
      exact fun c hc => hkeeps c (List.mem_append_right _ hc)

/-! ## The two measures -/

/-- Painting changes the core and nothing else. -/
theorem exists_paintFrom (value : UInt8) : ∀ (left : Nat) (addr : UInt32) (m : Mcu ι),
    ∃ c, paintFrom value left addr m = { m with avr := c }
  | 0, _, m => ⟨m.avr, rfl⟩
  | left + 1, addr, m => exists_paintFrom value left (addr + 1) (m.setData addr.toUInt16 value)

/-- A region that has just been painted and is watched from now on. -/
theorem paintIntact_paint {m : Mcu ι} (hram : region.high ≤ m.prog.part.ramend)
    (hnew : m.stackWatch (region.low, region.high) = none) :
    PaintIntact region ((paint region m).watchStack region.low region.high) := by
  have hnew' : (paint region m).stackWatch (region.low, region.high) = none := by
    obtain ⟨c, hpaint⟩ : ∃ c, paint region m = { m with avr := c } := exists_paintFrom _ _ _ m
    rw [hpaint]
    exact hnew
  refine ⟨StackWatch.new region.low region.high, ?_, fun h => (by cases h), fun addr hin _ => ?_⟩
  · rw [stackWatch_watchStack, if_pos rfl, hnew', Option.getD_none]
  · rw [Mcu.watchStack_avr, (data_paint region m addr).2,
      if_pos ⟨UInt16.le_trans hin.2 hram, hin.1, hin.2⟩]

/-- What is still paint at the bottom is counted. -/
theorem le_surviving {m : Mcu ι} (hram : region.high ≤ m.prog.part.ramend) {top : Nat}
    (htop : top ≤ region.high.toNat)
    (hpaint : ∀ addr, region.contains addr → addr.toNat ≤ top → m.avr.data addr = region.value) :
    top + 1 - region.low.toNat ≤ m.surviving region.low region.high region.value := by
  have hlength := length_takeWhile_range' top region.low.toNat
    (region.high.toNat + 1 - region.low.toNat)
  have hle : top + 1 - region.low.toNat
      = ((addresses region.low region.high).takeWhile fun a => a ≤ top).length := by
    unfold addresses
    rw [hlength]
    omega
  rw [hle]
  refine takeWhile_length_le_of_imp fun addr haddr hbelow => ?_
  have hnat := toNat_ofNat_of_mem haddr
  obtain ⟨hlow, hhigh⟩ := mem_addresses.mp haddr
  have hin : region.contains (UInt16.ofNat addr) := by
    constructor <;> rw [UInt16.le_iff_toNat_le, hnat]
    · exact hlow
    · exact hhigh
  have hpainted := hpaint (UInt16.ofNat addr) hin (by rw [hnat]; simpa using hbelow)
  have hram' : region.high.toNat ≤ m.prog.part.ramend.toNat := hram
  simp only [Mcu.holds, hpainted, beq_self_eq_true, Bool.and_true, decide_eq_true_eq]
  omega

/-- Counting stops at the first that does not count. -/
theorem length_takeWhile_le_of_false {α : Type} {p : α → Bool} : ∀ {l : List α} {i : Nat}
    (hi : i < l.length), p l[i] = false → (l.takeWhile p).length ≤ i
  | a :: l, 0, _, h => by
    have ha : p a = false := h
    rw [List.takeWhile_cons_of_neg (by simp [ha])]
    exact Nat.le_refl 0
  | a :: l, i + 1, hi, h => by
    have ih := length_takeWhile_le_of_false (l := l) (Nat.lt_of_succ_lt_succ hi) h
    rw [List.takeWhile_cons]
    split
    · exact Nat.succ_le_succ ih
    · exact Nat.zero_le _

/-- What has been overwritten is not counted, nor is anything above it. -/
theorem surviving_le {m : Mcu ι} {addr : UInt16} (hin : region.contains addr)
    (hspoilt : m.avr.data addr ≠ region.value) :
    m.surviving region.low region.high region.value ≤ addr.toNat - region.low.toNat := by
  have hlow : region.low.toNat ≤ addr.toNat := hin.1
  have hhigh : addr.toNat ≤ region.high.toNat := hin.2
  have hi : addr.toNat - region.low.toNat < (addresses region.low region.high).length := by
    unfold addresses
    rw [List.length_range']
    omega
  refine length_takeWhile_le_of_false hi ?_
  have hget : (addresses region.low region.high)[addr.toNat - region.low.toNat] = addr.toNat := by
    simp only [addresses, List.getElem_range']
    omega
  rw [hget, Mcu.holds, UInt16.ofNat_toNat, beq_eq_false_iff_ne.mpr hspoilt, Bool.and_false]

/--
**A stack never uses more by its paint than by its stack pointer.** In any run from a machine whose
region has just been painted and is watched from now on, in which every instruction keeps to the
stack discipline, no operation writes in the region by itself and neither the core nor the watch is
started over, the high-water mark of the paint is at most the depth the watch reports. The two are
the same when the byte above the deepest stack pointer does not hold the paint.
-/
theorem highWater_le_deepest (sim : Simavr ι) (m : Mcu ι) (hsram : region.InSram m.prog.part)
    (hnew : m.stackWatch (region.low, region.high) = none) {ops : List Op}
    (hspares : ∀ op ∈ ops, op.spares m.prog.part region)
    (hkeeps : ∀ c ∈ instructions sim m.prog (paint region m).avr ops, KeepsStack sim region c) :
    ∃ w, (runOps sim ((paint region m).watchStack region.low region.high) ops).stackWatch
          (region.low, region.high) = some w
      ∧ region.high.toNat + 1 - region.low.toNat
          - ((runOps sim ((paint region m).watchStack region.low region.high) ops).untouchedBytes
              region.low region.high region.value).toNat ≤ w.deepestBytes.toNat
      ∧ (w.entered = true →
          (runOps sim ((paint region m).watchStack region.low region.high) ops).avr.data
            (w.lowest + 1) ≠ region.value →
          region.high.toNat + 1 - region.low.toNat
            - ((runOps sim ((paint region m).watchStack region.low region.high) ops).untouchedBytes
                region.low region.high region.value).toNat = w.deepestBytes.toNat) := by
  have hprog : ((paint region m).watchStack region.low region.high).prog = m.prog := by
    rw [Mcu.watchStack_prog]
    exact (data_paint region m 0).1
  have hintact := (paintIntact_paint hsram.ram hnew).runOps sim ops (hprog ▸ hsram)
    (hprog ▸ hspares) (by rw [hprog, Mcu.watchStack_avr]; exact hkeeps)
  have hprog' : (runOps sim ((paint region m).watchStack region.low region.high) ops).prog
      = m.prog := (runOps_prog sim _ ops).trans hprog
  generalize runOps sim ((paint region m).watchStack region.low region.high) ops = m' at *
  obtain ⟨w, hw, hbounds, hpaint⟩ := hintact
  have hrange : w.range = (region.low, region.high) := by simpa using List.find?_some hw
  obtain ⟨hlow, hhigh⟩ := Prod.mk.inj hrange
  have hram : region.high ≤ m'.prog.part.ramend := by
    rw [hprog']
    exact hsram.ram
  have hmeasurable : PaintMeasurable m'.prog.part.ramend region := by
    refine Or.inr ⟨Or.inr hram, fun h => ?_⟩
    have habove := hsram.above
    rw [h.1] at habove
    exact absurd habove (by decide)
  have hhigh' := region.high.toNat_lt
  rw [toNat_untouchedBytes hmeasurable]
  refine ⟨w, hw, ?_⟩
  cases hentered : w.entered with
  | false =>
    -- nothing ran on this stack, and all of its paint is left
    have hall := le_surviving hram (Nat.le_refl _) fun addr hin _ =>
      hpaint addr hin fun h => absurd (hentered.symm.trans h) Bool.false_ne_true
    refine ⟨by omega, fun h => by cases h⟩
  | true =>
    obtain ⟨hbottom, htop⟩ := hbounds hentered
    have hdeepest : w.deepestBytes.toNat = region.high.toNat - w.myLowest.toNat := by
      unfold StackWatch.deepestBytes
      rw [hentered, hhigh]
      exact UInt16.toNat_sub_of_le _ _ htop
    have hlowest : w.lowest = w.myLowest := by
      unfold StackWatch.lowest
      rw [if_pos hentered]
    have hbottom' : region.low.toNat ≤ w.myLowest.toNat := hbottom
    have htop' : w.myLowest.toNat ≤ region.high.toNat := htop
    have hleft := le_surviving hram htop' fun addr hin hle => hpaint addr hin fun _ => hle
    rw [hdeepest, hlowest]
    refine ⟨by omega, fun _ hspoilt => ?_⟩
    rcases Nat.eq_or_lt_of_le htop' with heq | hlt
    · omega
    · have hnext : (w.myLowest + 1).toNat = w.myLowest.toNat + 1 := by
        rw [UInt16.toNat_add, UInt16.toNat_one]
        exact Nat.mod_eq_of_lt (by omega)
      have hin : region.contains (w.myLowest + 1) := by
        constructor <;> rw [UInt16.le_iff_toNat_le] <;> omega
      have hle := surviving_le hin hspoilt
      omega

/-! ## The fragment -/

theorem data_setSp_of_lt (c : Core ι) (sp : UInt16) {addr : UInt16} (h : sregAddress < addr) :
    (Isa.setSp c sp).data addr = c.data addr := by
  unfold Isa.setSp
  rw [Core.write_data_of_ne, Core.write_data_of_ne]
  · rintro rfl
    exact absurd h (by decide)
  · rintro rfl
    exact absurd h (by decide)

/-- Only `push` writes in RAM, and it does so above the stack pointer it leaves. -/
theorem keepsStack_of_room {c : Core Unit} (hsram : region.InSram Isa.atmega328p)
    (hsp : 0 < c.sp) (hroom : region.low ≤ (Isa.simavr.next c).sp) :
    KeepsStack Isa.simavr region c := by
  refine ⟨fun addr hin => ?_, hroom⟩
  have habove : sregAddress < addr := UInt16.lt_of_lt_of_le hsram.above hin.1
  show (Isa.step Isa.atmega328p c).data addr ≠ c.data addr → (Isa.step Isa.atmega328p c).sp < addr
  unfold Isa.step
  cases c.state with
  | running =>
    cases Isa.decode (Isa.fetch c) with
    | push r =>
      intro hne
      have hsame : addr = c.sp := by
        by_contra hother
        refine hne ?_
        show (Isa.setSp (c.write c.sp (c.reg r)) (c.sp - 1)).data addr = c.data addr
        rw [data_setSp_of_lt _ _ habove, Core.write_data_of_ne _ hother]
      have hsp' : (Isa.setSp (c.write c.sp (c.reg r)) (c.sp - 1)).sp = c.sp - 1 := sp_setSp _ _
      show (Isa.setSp (c.write c.sp (c.reg r)) (c.sp - 1)).sp < addr
      rw [hsp', hsame]
      have hpos : 0 < c.sp.toNat := hsp
      rw [UInt16.lt_iff_toNat_lt, UInt16.toNat_sub_of_le _ _ hpos, UInt16.toNat_one]
      omega
    | pop r =>
      intro hne
      refine absurd ?_ hne
      show ((Isa.setSp c (c.sp + 1)).setReg r _).data addr = c.data addr
      rw [data_setReg_of_lt _ _ _ habove, data_setSp_of_lt _ _ habove]
    | ret => exact fun hne => absurd (data_setSp_of_lt c _ habove) hne
    | nop | rjmp offset | sleep | illegal => exact fun hne => absurd rfl hne
  | _ => exact fun hne => absurd rfl hne

/-- A program that pushes two bytes and pops them again, on a stack from 0x0100 to 0x011F. -/
def pushes : Mcu Unit :=
  runOps Isa.simavr (Isa.boot [0x920F, 0x920F, 0x900F, 0x900F, 0xCFFB] [⟨"main", 0⟩])
    [.setData splAddress 0x1F, .setData sphAddress 0x01]

/-- The range of that stack, and what it is painted with. -/
def pushesStack : Region := ⟨0x0100, 0x011F, 0xC5⟩

/-- That machine painted, watched and run. -/
def pushesRun : Mcu Unit :=
  runOps Isa.simavr ((paint pushesStack pushes).watchStack pushesStack.low pushesStack.high)
    [.run 20]

/-- Two bytes by either measure: the paint above the deepest stack pointer is gone. -/
theorem highWater_le_deepest_pushes :
    ∃ w, pushesRun.stackWatch (pushesStack.low, pushesStack.high) = some w
      ∧ pushesStack.high.toNat + 1 - pushesStack.low.toNat
          - (pushesRun.untouchedBytes pushesStack.low pushesStack.high pushesStack.value).toNat
        = w.deepestBytes.toNat := by
  have hsram : Region.InSram pushes.prog.part pushesStack := ⟨by decide, by decide⟩
  have hspares : ∀ op ∈ [Op.run 20], op.spares pushes.prog.part pushesStack := by
    intro op hop
    rw [List.mem_singleton.mp hop]
    trivial
  have hkeeps : ∀ c ∈ instructions Isa.simavr pushes.prog (paint pushesStack pushes).avr [.run 20],
      0 < c.sp ∧ pushesStack.low ≤ (Isa.simavr.next c).sp := by decide +kernel
  have hnew : pushes.stackWatch (pushesStack.low, pushesStack.high) = none := by decide +kernel
  have hspoilt : (pushesRun.stackWatch (pushesStack.low, pushesStack.high)).all (fun w =>
      w.entered && pushesRun.avr.data (w.lowest + 1) != pushesStack.value) = true := by
    decide +kernel
  unfold pushesRun at hspoilt ⊢
  obtain ⟨w, hw, -, hexact⟩ := highWater_le_deepest Isa.simavr pushes hsram hnew hspares
    fun c hc => keepsStack_of_room hsram (hkeeps c hc).1 (hkeeps c hc).2
  rw [hw] at hspoilt
  simp only [Option.all_some, Bool.and_eq_true, bne_iff_ne] at hspoilt
  exact ⟨w, hw, hexact hspoilt.1 hspoilt.2⟩

end Avrsim
