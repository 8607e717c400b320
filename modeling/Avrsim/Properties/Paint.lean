import Avrsim.Isa
import Avrsim.Tool

/-!
# Painted regions

A region is painted by writing its byte to every address, and measured by reading from the bottom
until another byte turns up. Writes past RAMEND are dropped and reads there give 0, so the two
disagree on which addresses exist when the paint is 0; and the count has sixteen bits, one too few
for the whole data space.

* `surviving` and `paintable` — what is to be counted, in exact arithmetic
* `paintLines_congr` — the report is read off the data space alone
* `paint_rel` — painting keeps what writing a byte keeps
* `data_paint` — what painting leaves
* `countsPaint_iff` — when the count is right
-/

namespace Avrsim

open Tool

variable {ι κ : Type}

/-! ## What is to be counted -/

/-- The addresses of a range, lowest first. None if it is backwards. -/
def addresses (low high : UInt16) : List Nat :=
  List.range' low.toNat (high.toNat + 1 - low.toNat)

namespace Mcu

/-- The address exists and holds the byte. -/
def holds (m : Mcu ι) (b : UInt8) (addr : Nat) : Bool :=
  decide (addr ≤ m.prog.part.ramend.toNat) && m.avr.data (UInt16.ofNat addr) == b

/-- How many addresses at the bottom of the range exist and hold the byte. -/
def surviving (m : Mcu ι) (low high : UInt16) (b : UInt8) : Nat :=
  ((addresses low high).takeWhile (m.holds b)).length

/-- How many addresses of the range exist. -/
def paintable (m : Mcu ι) (low high : UInt16) : Nat :=
  ((addresses low high).filter fun addr => addr ≤ m.prog.part.ramend.toNat).length

end Mcu

theorem length_takeWhile_range' (top : Nat) : ∀ start n : Nat,
    ((List.range' start n).takeWhile fun a => a ≤ top).length = min n (top + 1 - start)
  | _, 0 => by simp
  | start, n + 1 => by
    rw [List.range'_succ]
    by_cases h : start ≤ top
    · rw [List.takeWhile_cons_of_pos (by simpa using h), List.length_cons,
        length_takeWhile_range' top (start + 1) n]
      omega
    · rw [List.takeWhile_cons_of_neg (by simpa using h), List.length_nil]
      omega

theorem length_filter_range' (top : Nat) : ∀ start n : Nat,
    ((List.range' start n).filter fun a => a ≤ top).length = min n (top + 1 - start)
  | _, 0 => by simp
  | start, n + 1 => by
    rw [List.range'_succ, List.filter_cons]
    have ih := length_filter_range' top (start + 1) n
    by_cases h : start ≤ top
    · rw [if_pos (by simpa using h), List.length_cons, ih]
      omega
    · rw [if_neg (by simpa using h), ih]
      omega

theorem paintable_eq (m : Mcu ι) (low high : UInt16) :
    m.paintable low high
      = min (high.toNat + 1 - low.toNat) (m.prog.part.ramend.toNat + 1 - low.toNat) :=
  length_filter_range' _ _ _

theorem takeWhile_length_le_of_imp {α : Type} {p q : α → Bool} : ∀ {l : List α},
    (∀ a ∈ l, p a = true → q a = true) → (l.takeWhile p).length ≤ (l.takeWhile q).length
  | [], _ => Nat.le_refl _
  | a :: l, h => by
    have ih := takeWhile_length_le_of_imp fun b hb => h b (List.mem_cons_of_mem a hb)
    cases hp : p a with
    | false => simp [hp]
    | true =>
      rw [List.takeWhile_cons_of_pos hp, List.takeWhile_cons_of_pos (h a List.mem_cons_self hp)]
      exact Nat.succ_le_succ ih

theorem surviving_le_paintable (m : Mcu ι) (low high : UInt16) (b : UInt8) :
    m.surviving low high b ≤ m.paintable low high := by
  rw [paintable_eq, ← length_takeWhile_range']
  refine takeWhile_length_le_of_imp fun addr _ haddr => ?_
  simp only [Mcu.holds, Bool.and_eq_true] at haddr
  exact haddr.1

/-! ## The counting loop -/

/-- What the counting loop compares. -/
def Mcu.reads (m : Mcu ι) (b : UInt8) (addr : Nat) : Bool := m.data (UInt16.ofNat addr) == b

theorem toUInt16_eq_ofNat (addr : UInt32) : addr.toUInt16 = UInt16.ofNat addr.toNat := by
  simp

theorem toNat_succ_of_lt {addr : UInt32} (h : addr.toNat + 1 < 2 ^ 32) :
    (addr + 1).toNat = addr.toNat + 1 := by
  rw [UInt32.toNat_add, UInt32.toNat_one]
  exact Nat.mod_eq_of_lt h

theorem countUntouched_eq (m : Mcu ι) (b : UInt8) : ∀ (left : Nat) (addr : UInt32)
    (untouched : UInt16), addr.toNat + left < 2 ^ 32 →
      m.countUntouched b left addr untouched
        = untouched + UInt16.ofNat ((List.range' addr.toNat left).takeWhile (m.reads b)).length
  | 0, _, untouched, _ => by simp [Mcu.countUntouched]
  | left + 1, addr, untouched, h => by
    have hsucc : (addr + 1).toNat = addr.toNat + 1 := toNat_succ_of_lt (by omega)
    rw [Mcu.countUntouched, List.range'_succ]
    by_cases hread : b = m.data addr.toUInt16
    · have htrue : m.reads b addr.toNat = true := by
        simp only [Mcu.reads, ← toUInt16_eq_ofNat, beq_iff_eq]
        exact hread.symm
      rw [if_neg (by simpa using hread), countUntouched_eq m b left _ _ (by omega), hsucc,
        List.takeWhile_cons_of_pos htrue, List.length_cons, UInt16.ofNat_add, UInt16.ofNat_one]
      grind
    · have hfalse : m.reads b addr.toNat = false := by
        simp only [Mcu.reads, ← toUInt16_eq_ofNat, beq_eq_false_iff_ne]
        exact Ne.symm hread
      rw [if_pos hread, List.takeWhile_cons_of_neg (by simp [hfalse])]
      simp

theorem untouchedBytes_eq (m : Mcu ι) (low high : UInt16) (b : UInt8) :
    m.untouchedBytes low high b
      = UInt16.ofNat ((addresses low high).takeWhile (m.reads b)).length := by
  have hlow := low.toNat_lt
  have hhigh := high.toNat_lt
  unfold Mcu.untouchedBytes
  split
  · next h =>
    have hnone : high.toNat + 1 - low.toNat = 0 := by
      rw [UInt16.lt_iff_toNat_lt] at h
      omega
    simp [addresses, hnone]
  · have hstart : low.toUInt32.toNat = low.toNat := by simp
    rw [countUntouched_eq m b _ _ 0 (by omega), hstart]
    simp [addresses]

/-- The report is read off the data space alone. -/
theorem paintLines_congr {m : Mcu ι} {m' : Mcu κ} (hdata : m'.data = m.data) :
    paintLines m' = paintLines m := by
  funext region
  have hreads : m'.reads region.value = m.reads region.value := by
    funext addr
    rw [Mcu.reads, Mcu.reads, hdata]
  unfold paintLines
  rw [untouchedBytes_eq, untouchedBytes_eq, hreads]

/-! ## The painting loop -/

/-- Painting keeps what writing a byte keeps of two machines. -/
theorem paint_rel {S : Mcu ι → Mcu κ → Prop} (region : Region)
    (hset : ∀ (addr : UInt16) (m : Mcu ι) (m' : Mcu κ), S m m' →
      S (m.setData addr region.value) (m'.setData addr region.value)) {m : Mcu ι} {m' : Mcu κ}
    (h : S m m') : S (paint region m) (paint region m') := by
  have hloop : ∀ (left : Nat) (addr : UInt32) (m : Mcu ι) (m' : Mcu κ), S m m' →
      S (paintFrom region.value left addr m) (paintFrom region.value left addr m') := by
    intro left
    induction left with
    | zero => exact fun _ _ _ h => h
    | succ left ih => exact fun addr _ _ h => ih (addr + 1) _ _ (hset addr.toUInt16 _ _ h)
  exact hloop _ _ _ _ h

theorem data_setData (m : Mcu ι) (addr : UInt16) (value : UInt8) (a : UInt16) :
    (m.setData addr value).avr.data a
      = if a = addr ∧ addr ≤ m.prog.part.ramend then value else m.avr.data a := by
  unfold Mcu.setData Core.setByte
  by_cases hram : addr ≤ m.prog.part.ramend
  · by_cases ha : a = addr
    · subst ha
      simp [hram]
    · simp [hram, ha, Core.write_data_of_ne _ ha]
  · simp [hram]

theorem data_paintFrom (value : UInt8) : ∀ (left : Nat) (addr : UInt32) (m : Mcu ι) (a : UInt16),
    addr.toNat + left ≤ 2 ^ 16 →
      (paintFrom value left addr m).prog = m.prog
        ∧ (paintFrom value left addr m).avr.data a
          = if a ≤ m.prog.part.ramend ∧ addr.toNat ≤ a.toNat ∧ a.toNat < addr.toNat + left then
              value
            else m.avr.data a
  | 0, addr, m, a, _ => by
    refine ⟨rfl, ?_⟩
    rw [if_neg (by omega)]
    rfl
  | left + 1, addr, m, a, h => by
    have hsucc : (addr + 1).toNat = addr.toNat + 1 := toNat_succ_of_lt (by omega)
    have haddr : addr.toUInt16.toNat = addr.toNat := by
      rw [UInt32.toNat_toUInt16]
      exact Nat.mod_eq_of_lt (by omega)
    obtain ⟨hprog, hdata⟩ := data_paintFrom value left (addr + 1) (m.setData addr.toUInt16 value) a
      (by omega)
    have hset : (m.setData addr.toUInt16 value).prog = m.prog := rfl
    rw [paintFrom]
    refine ⟨hprog, ?_⟩
    rw [hdata, hset, hsucc, data_setData]
    by_cases ha : a = addr.toUInt16
    · subst ha
      rw [haddr]
      by_cases hram : addr.toUInt16 ≤ m.prog.part.ramend
      · rw [if_neg (by omega), if_pos ⟨rfl, hram⟩, if_pos ⟨hram, by omega, by omega⟩]
      · rw [if_neg (fun hc => hram hc.1), if_neg (fun hc => hram hc.2), if_neg (fun hc => hram hc.1)]
    · have hne : a.toNat ≠ addr.toNat := by
        rw [← haddr]
        exact fun heq => ha (UInt16.toNat_inj.mp heq)
      rw [if_neg (fun hc : a = addr.toUInt16 ∧ _ => ha hc.1)]
      congr 1
      rw [eq_iff_iff]
      constructor
      · rintro ⟨hram, hle, hlt⟩
        exact ⟨hram, by omega, by omega⟩
      · rintro ⟨hram, hle, hlt⟩
        exact ⟨hram, by omega, by omega⟩

/-- What painting leaves: the byte where the address exists, everything else as it was. -/
theorem data_paint (region : Region) (m : Mcu ι) (a : UInt16) :
    (paint region m).prog = m.prog
      ∧ (paint region m).avr.data a
        = if a ≤ m.prog.part.ramend ∧ region.low ≤ a ∧ a ≤ region.high then region.value
          else m.avr.data a := by
  have hlow := region.low.toNat_lt
  have hhigh := region.high.toNat_lt
  have hstart : region.low.toUInt32.toNat = region.low.toNat := by simp
  rcases Nat.lt_or_ge region.high.toNat region.low.toNat with hback | hle
  · have hnone : region.high.toNat + 1 - region.low.toNat = 0 := by omega
    unfold paint
    rw [hnone]
    refine ⟨rfl, ?_⟩
    rw [if_neg]
    · rfl
    · rintro ⟨-, h₁, h₂⟩
      rw [UInt16.le_iff_toNat_le] at h₁ h₂
      omega
  · obtain ⟨hprog, hdata⟩ := data_paintFrom region.value
      (region.high.toNat + 1 - region.low.toNat) region.low.toUInt32 m a (by omega)
    refine ⟨hprog, hdata.trans ?_⟩
    rw [hstart]
    congr 1
    rw [eq_iff_iff, UInt16.le_iff_toNat_le, UInt16.le_iff_toNat_le, UInt16.le_iff_toNat_le]
    omega

/-! ## The count after painting -/

theorem mem_addresses {low high : UInt16} {addr : Nat} :
    addr ∈ addresses low high ↔ low.toNat ≤ addr ∧ addr ≤ high.toNat := by
  unfold addresses
  rw [List.mem_range'_1]
  omega

/-- A 16-bit address read as such. -/
theorem toNat_ofNat_of_mem {low high : UInt16} {addr : Nat} (h : addr ∈ addresses low high) :
    (UInt16.ofNat addr).toNat = addr := by
  have hhigh := high.toNat_lt
  have hle := (mem_addresses.mp h).2
  rw [UInt16.toNat_ofNat']
  exact Nat.mod_eq_of_lt (by omega)

/-- An address past RAMEND reads as 0. -/
theorem reads_eq {m : Mcu ι} {low high : UInt16} {b : UInt8} {addr : Nat}
    (h : addr ∈ addresses low high) :
    m.reads b addr = if addr ≤ m.prog.part.ramend.toNat then m.holds b addr else 0 == b := by
  have hle : UInt16.ofNat addr ≤ m.prog.part.ramend ↔ addr ≤ m.prog.part.ramend.toNat := by
    rw [UInt16.le_iff_toNat_le, toNat_ofNat_of_mem h]
  unfold Mcu.reads Mcu.data Core.byte Mcu.holds
  by_cases hram : addr ≤ m.prog.part.ramend.toNat
  · simp [hram, hle.mpr hram]
  · simp [hram, mt hle.mp hram]

/-- When no read past RAMEND can be taken for paint, the loop stops where it should. -/
theorem untouchedBytes_eq_surviving {m : Mcu ι} {low high : UInt16} {b : UInt8}
    (h : b ≠ 0 ∨ high ≤ m.prog.part.ramend) :
    m.untouchedBytes low high b = UInt16.ofNat (m.surviving low high b) := by
  have hsame : ∀ addr ∈ addresses low high, m.reads b addr = m.holds b addr := by
    intro addr haddr
    rw [reads_eq haddr]
    split
    · rfl
    · next hram =>
      have hholds : m.holds b addr = false := by simp [Mcu.holds, hram]
      rcases h with hb | hhigh
      · rw [hholds, beq_eq_false_iff_ne]
        exact Ne.symm hb
      · have hle := (mem_addresses.mp haddr).2
        rw [UInt16.le_iff_toNat_le] at hhigh
        omega
  rw [untouchedBytes_eq, Mcu.surviving]
  congr 1
  refine Nat.le_antisymm ?_ ?_
  · exact takeWhile_length_le_of_imp fun addr haddr hread => hsame addr haddr ▸ hread
  · exact takeWhile_length_le_of_imp fun addr haddr hhold => (hsame addr haddr).symm ▸ hhold

theorem holds_paint {m : Mcu ι} {region : Region} {addr : Nat}
    (h : addr ∈ addresses region.low region.high) :
    (paint region m).holds region.value addr = decide (addr ≤ m.prog.part.ramend.toNat) := by
  have hnat := toNat_ofNat_of_mem h
  obtain ⟨hlow, hhigh⟩ := mem_addresses.mp h
  obtain ⟨hprog, hdata⟩ := data_paint region m (UInt16.ofNat addr)
  unfold Mcu.holds
  rw [hprog, hdata]
  by_cases hram : addr ≤ m.prog.part.ramend.toNat
  · rw [if_pos]
    · simp
    · refine ⟨?_, ?_, ?_⟩ <;> rw [UInt16.le_iff_toNat_le, hnat]
      · exact hram
      · exact hlow
      · exact hhigh
  · simp [hram]

/-- Right after painting, what survives is what could be painted. -/
theorem surviving_paint (m : Mcu ι) (region : Region) :
    (paint region m).surviving region.low region.high region.value
      = m.paintable region.low region.high := by
  rw [paintable_eq, ← length_takeWhile_range']
  refine Nat.le_antisymm ?_ ?_
  · exact takeWhile_length_le_of_imp fun addr haddr hhold => holds_paint haddr ▸ hhold
  · exact takeWhile_length_le_of_imp fun addr haddr hle => (holds_paint haddr).symm ▸ hle

/-- With a paint of 0 the addresses past RAMEND are counted as well. -/
theorem untouchedBytes_paint_zero (m : Mcu ι) {region : Region} (hzero : region.value = 0) :
    (paint region m).untouchedBytes region.low region.high region.value
      = UInt16.ofNat (region.high.toNat + 1 - region.low.toNat) := by
  have hall : ∀ addr ∈ addresses region.low region.high,
      (paint region m).reads region.value addr = true := by
    intro addr haddr
    rw [reads_eq haddr]
    split
    · next hram =>
      rw [holds_paint haddr]
      rw [(data_paint region m 0).1] at hram
      exact decide_eq_true hram
    · rw [hzero]
      rfl
  rw [untouchedBytes_eq, List.takeWhile_eq_self_iff.mpr hall, addresses, List.length_range']

/-- The range is backwards, or no address past RAMEND counts and the count fits in 16 bits. -/
def PaintMeasurable (ramend : UInt16) (region : Region) : Prop :=
  region.high < region.low
    ∨ (region.value ≠ 0 ∨ region.high ≤ ramend)
      ∧ ¬ (region.low = 0 ∧ region.high = 0xFFFF ∧ ramend = 0xFFFF)

theorem toNat_untouchedBytes {m : Mcu ι} {region : Region}
    (h : PaintMeasurable m.prog.part.ramend region) :
    (m.untouchedBytes region.low region.high region.value).toNat
      = m.surviving region.low region.high region.value := by
  have hlow := region.low.toNat_lt
  have hhigh := region.high.toNat_lt
  have hram := m.prog.part.ramend.toNat_lt
  have hle := surviving_le_paintable m region.low region.high region.value
  rw [paintable_eq] at hle
  rcases h with hback | ⟨hpast, hfull⟩
  · have hzero : m.untouchedBytes region.low region.high region.value = 0 := if_pos hback
    rw [UInt16.lt_iff_toNat_lt] at hback
    rw [hzero, UInt16.toNat_zero]
    omega
  · rw [untouchedBytes_eq_surviving hpast, UInt16.toNat_ofNat']
    refine Nat.mod_eq_of_lt ?_
    simp only [← UInt16.toNat_inj, UInt16.reduceToNat] at hfull
    omega

/--
The count is right: it is the number of addresses at the bottom of the range that exist and hold
the byte, and right after painting it is the number that were painted.
-/
def CountsPaint (m : Mcu ι) (region : Region) : Prop :=
  (m.untouchedBytes region.low region.high region.value).toNat
      = m.surviving region.low region.high region.value
    ∧ ((paint region m).untouchedBytes region.low region.high region.value).toNat
      = m.paintable region.low region.high

/--
**The count is right exactly when the range is backwards, or its paint cannot be taken for what
lies past RAMEND and it is not the whole of a data space that fills 16 bits.**
-/
theorem countsPaint_iff (m : Mcu ι) (region : Region) :
    CountsPaint m region ↔ PaintMeasurable m.prog.part.ramend region := by
  have hprog : (paint region m).prog = m.prog := (data_paint region m 0).1
  constructor
  · rintro ⟨-, hpainted⟩
    have hlow := region.low.toNat_lt
    have hhigh := region.high.toNat_lt
    have hram := m.prog.part.ramend.toNat_lt
    by_contra hnot
    simp only [PaintMeasurable, UInt16.lt_iff_toNat_lt, UInt16.le_iff_toNat_le, ← UInt16.toNat_inj,
      UInt16.reduceToNat] at hnot
    rw [not_or, not_and_or, not_or, not_not, not_not] at hnot
    obtain ⟨hle, hbad⟩ := hnot
    by_cases hzero : region.value = 0 ∧ ¬ region.high.toNat ≤ m.prog.part.ramend.toNat
    · -- everything reads as paint, also what does not exist
      rw [untouchedBytes_paint_zero m hzero.1, paintable_eq, UInt16.toNat_ofNat'] at hpainted
      omega
    · -- all 65536 bytes are paint
      obtain ⟨hlow0, hhighMax, hramMax⟩ := hbad.resolve_left hzero
      have hpast : region.value ≠ 0 ∨ region.high ≤ (paint region m).prog.part.ramend := by
        rw [hprog, UInt16.le_iff_toNat_le]
        exact (not_and_or.mp hzero).imp_right not_not.mp
      rw [untouchedBytes_eq_surviving hpast, surviving_paint, paintable_eq,
        UInt16.toNat_ofNat'] at hpainted
      omega
  · intro h
    have hpainted : PaintMeasurable (paint region m).prog.part.ramend region := by
      rw [hprog]
      exact h
    refine ⟨toNat_untouchedBytes h, ?_⟩
    rw [toNat_untouchedBytes hpainted, surviving_paint]

/-- Thirty-three bytes across RAMEND, painted with 0: sixteen of them exist. -/
theorem not_countsPaint_zero :
    Isa.turns.paintable 0x08F0 0x0910 = 16
      ∧ (paint ⟨0x08F0, 0x0910, 0⟩ Isa.turns).untouchedBytes 0x08F0 0x0910 0 = 33
      ∧ ¬ CountsPaint Isa.turns ⟨0x08F0, 0x0910, 0⟩ := by
  have hcount : (paint ⟨0x08F0, 0x0910, 0⟩ Isa.turns).untouchedBytes 0x08F0 0x0910 0 = 33 := by
    decide +kernel
  have hpaintable : Isa.turns.paintable 0x08F0 0x0910 = 16 := by decide +kernel
  refine ⟨hpaintable, hcount, ?_⟩
  rintro ⟨-, hpainted⟩
  rw [hpaintable, hcount] at hpainted
  exact absurd hpainted (by decide)

end Avrsim
