import Mathlib.Data.Finset.Max
import Avrsim.Properties.Profile

/-!
# Profiles of a whole program

The functions of a loaded image share out its code: from the first symbol to the end of the program
every address is in the extent of exactly one. A profile of all of them has no time outside.

* `Program.InCode` — from the first symbol to the end of the program
* `exists_extent` — such an address is in an extent
* `profile_complete` — what a profile of all functions adds up to
-/

namespace Avrsim

open Infra Infra.Stretch

variable {ι : Type}

/-- From the first symbol to the end of the program. -/
def Program.InCode (prog : Program) (pc : UInt32) : Prop :=
  (∃ a ∈ prog.flashSymbols, a ≤ pc) ∧ pc < prog.fallbackEnd

/-- The last symbol that is not past an address has it in its extent. -/
theorem exists_extent {prog : Program} {pc : UInt32} (h : prog.InCode pc) :
    ∃ a ∈ prog.flashSymbols, a ≤ pc ∧ pc < prog.extentEnd a := by
  obtain ⟨⟨first, hfirst, hle⟩, hend⟩ := h
  have hne : (prog.flashSymbols.toFinset.filter (· ≤ pc)).Nonempty :=
    ⟨first, by simp [hfirst, hle]⟩
  obtain ⟨a, ha, hmax⟩ := Finset.exists_max_image _ UInt32.toNat hne
  simp only [Finset.mem_filter, List.mem_toFinset] at ha hmax
  refine ⟨a, ha.1, ha.2, ?_⟩
  unfold Program.extentEnd
  cases hfind : prog.flashSymbols.find? (fun addr => decide (a < addr)) with
  | none => exact hend
  | some next =>
    have hpast : a < next := by simpa using List.find?_some hfind
    by_contra hnext
    have hlow := hmax next ⟨List.mem_of_find?_eq_some hfind, UInt32.not_lt.mp hnext⟩
    exact absurd hpast (UInt32.not_lt.mpr (UInt32.le_iff_toNat_le.mpr hlow))

/-- A symbol of flash is defined where there is code past it. -/
theorem contains_of_extent {prog : Program} {symbol : String} {pc : UInt32}
    (hle : prog.address symbol ≤ pc) (hlt : pc < prog.extentEnd (prog.address symbol)) :
    (Traced.new prog symbol 0).contains pc = true := by
  have hdef : noAddress ≠ prog.address symbol := by
    intro heq
    rw [← heq] at hle
    have htop : pc.toNat < (prog.extentEnd (prog.address symbol)).toNat := hlt
    have hword := (prog.extentEnd (prog.address symbol)).toNat_lt
    have hmax : noAddress.toNat ≤ pc.toNat := hle
    have hnone : noAddress.toNat = 2 ^ 32 - 1 := rfl
    omega
  have hbeq : (noAddress == prog.address symbol) = false := by simpa using hdef
  unfold Traced.new Traced.contains
  simp only [hbeq]
  simp [hle, hlt]

/-- When every symbol of flash has a name among some, no code is outside of all of them. -/
theorem outside_eq_false {prog : Program} {symbols : List String}
    (hall : ∀ a ∈ prog.flashSymbols, ∃ s ∈ symbols, prog.address s = a) {pc : UInt32}
    (hpc : prog.InCode pc) : prog.outside symbols pc = false := by
  obtain ⟨a, ha, hle, hlt⟩ := exists_extent hpc
  obtain ⟨s, hs, rfl⟩ := hall a ha
  unfold Program.outside
  rw [List.all_eq_false]
  exact ⟨s, hs, by simp [contains_of_extent hle hlt]⟩

/-- Where nothing is outside no time is spent there. -/
theorem outsideCycles_eq_zero {prog : Program} {symbols : List String} (pc : UInt32)
    {samples : List Sample} (h : ∀ s ∈ samples, prog.outside symbols s.pc = false) :
    outsideCycles prog symbols pc samples = 0 := by
  unfold outsideCycles edgeHistory
  rw [openedFrom_eq_stretches _ _ (Nat.zero_le _), List.drop_zero, stretches_eq_nil_of_low h]
  rfl

/-- In code there is one of the functions, and no two. -/
theorem existsUnique_occupies {prog : Program} (hload : prog.Loaded) (hfit : prog.FitsFlash)
    {symbols : List String}
    (hinj : ∀ s ∈ symbols, ∀ s' ∈ symbols, prog.address s = prog.address s' → s = s')
    (hall : ∀ a ∈ prog.flashSymbols, ∃ s ∈ symbols, prog.address s = a) {x : Sample}
    (hx : prog.InCode x.pc) : ∃! s, s ∈ symbols ∧ prog.occupies s x = true := by
  obtain ⟨a, ha, hle, hlt⟩ := exists_extent hx
  obtain ⟨s, hs, rfl⟩ := hall a ha
  have hocc : prog.occupies s x = true := contains_of_extent hle hlt
  refine ⟨s, ⟨hs, hocc⟩, ?_⟩
  rintro s' ⟨hs', hocc'⟩
  have hinj' : ∀ s ∈ symbols.toFinset, ∀ s' ∈ symbols.toFinset,
      prog.address s = prog.address s' → s = s' :=
    fun s hs s' hs' => hinj s (List.mem_toFinset.mp hs) s' (List.mem_toFinset.mp hs')
  exact occupies_unique hload hfit hinj' x (List.mem_toFinset.mpr hs') (List.mem_toFinset.mpr hs)
    hocc' hocc

/--
**A profile of all functions accounts for everything.**

All functions of a loaded image that fits in flash are traced at one point of a run, one name for
each symbol of flash, and until its end the run stays in the code, the cycle counter never goes down
and no log is cleared. Then every instruction is counted in exactly one function, and their costs
add up to the whole time from the first sample at which control has gone from one function to
another to the last.
-/
theorem profile_complete {sim : Simavr ι} {files : Files} {imagePath : String} {clockHz : UInt32}
    {m : Mcu ι} (hload : Mcu.load sim files imagePath clockHz = .ok m) (hfit : m.prog.FitsFlash)
    {symbols : List String} (hnodup : symbols.Nodup)
    (hinj : ∀ s ∈ symbols, ∀ s' ∈ symbols, m.address s = m.address s' → s = s')
    (hall : ∀ a ∈ m.prog.flashSymbols, ∃ s ∈ symbols, m.address s = a) {before after : List Op}
    (hnone : ∀ s ∈ symbols, (runOps sim m before).traced[s]? = none)
    (hascends : Ascends (samplesOf (history sim m.prog (runOps sim m before).avr after)))
    (hclear : ∀ s ∈ symbols, .clearTrace s ∉ after)
    (hcode : ∀ x ∈ samplesOf (history sim m.prog (runOps sim m before).avr after),
      m.prog.InCode x.pc) :
    (∀ x ∈ samplesOf (history sim m.prog (runOps sim m before).avr after),
        ∃! s, s ∈ symbols ∧ m.prog.occupies s x = true)
      ∧ (symbols.map (runOps sim m (before ++ traceAll symbols ++ after)).tracedCycles).sum
        = span Sample.clock (crossingsOf m.prog symbols (runOps sim m before).avr.sample
            (samplesOf (history sim m.prog (runOps sim m before).avr after))) := by
  have hunique := fun x hx =>
    existsUnique_occupies (loaded_of_load hload).1 hfit hinj hall (hcode x hx)
  refine ⟨hunique, ?_⟩
  have haccount := account_of_run hload hfit hnodup hinj hnone hascends hclear
  have houtside : outsideCycles m.prog symbols (runOps sim m before).avr.pc
      (samplesOf (history sim m.prog (runOps sim m before).avr after)) = 0 :=
    outsideCycles_eq_zero _ fun x hx => outside_eq_false hall (hcode x hx)
  rw [houtside, Nat.add_zero] at haccount
  exact haccount

/-- Two functions that take turns, from the middle of the first: 15 cycles after the first turn. -/
theorem profile_complete_turns :
    (["main", "f"].map (runOps Isa.simavr Isa.turns
      ([.run 1] ++ traceAll ["main", "f"] ++ [.run 17])).tracedCycles).sum = 15 := by
  have hload : Mcu.load Isa.simavr Isa.turnsFiles "app.elf" 16000000 = .ok Isa.turns :=
    Isa.load_eq_boot Isa.turnsFiles _ _ rfl
  have hfit : Isa.turns.prog.FitsFlash := by
    unfold Program.FitsFlash
    decide +kernel
  have hsymbols : Isa.turns.prog.flashSymbols = [0, 4] := by decide +kernel
  have hall : ∀ a ∈ Isa.turns.prog.flashSymbols, ∃ s ∈ ["main", "f"], Isa.turns.address s = a := by
    rw [hsymbols]
    rintro a ha
    obtain rfl | rfl : a = 0 ∨ a = 4 := by simpa using ha
    · exact ⟨"main", by decide, rfl⟩
    · exact ⟨"f", by decide, rfl⟩
  have hbefore : ∀ x ∈ samplesOf (history Isa.simavr Isa.turns.prog
      (runOps Isa.simavr Isa.turns [.run 1]).avr [.run 17]),
      x.pc < Isa.turns.prog.fallbackEnd := by decide +kernel
  have hfirst : 0 ∈ Isa.turns.prog.flashSymbols := by
    rw [hsymbols]
    exact List.mem_cons_self
  have hascends : Ascends (samplesOf (history Isa.simavr Isa.turns.prog
      (runOps Isa.simavr Isa.turns [.run 1]).avr [.run 17])) := by
    unfold Ascends
    decide +kernel
  rw [(profile_complete hload hfit (by decide) (by decide +kernel) hall (fun _ _ => rfl) hascends
    (by decide) fun x hx => ⟨⟨0, hfirst, Nat.zero_le _⟩, hbefore x hx⟩).2]
  decide +kernel

end Avrsim
