import Avrsim.Loader

/-!
# Extents

The extent of a function goes from its address to the next symbol. For any loaded image that
fits in flash two symbols at different addresses have disjoint extents, also the last symbol,
symbols outside flash and symbols that are not defined.

* `Loaded` — what the constructor establishes about a program, `loaded_of_load` that it does
* `disjoint_extents` — the extents of a loaded program
-/

namespace Avrsim

variable {ι : Type}

/-! ## The sorted symbols -/

theorem mem_unique : ∀ {addrs : List UInt32} {a : UInt32}, a ∈ unique addrs ↔ a ∈ addrs
  | [], _ => Iff.rfl
  | [_], _ => Iff.rfl
  | a :: b :: rest, x => by
    rw [unique]
    split
    · next hab =>
      subst hab
      rw [mem_unique]
      simp
    · rw [List.mem_cons, mem_unique, List.mem_cons (a := x) (b := a)]

theorem pairwise_unique {R : UInt32 → UInt32 → Prop} : ∀ {addrs : List UInt32},
    addrs.Pairwise R → (unique addrs).Pairwise R
  | [], h => h
  | [_], h => h
  | a :: b :: rest, h => by
    obtain ⟨hhead, htail⟩ := List.pairwise_cons.mp h
    rw [unique]
    split
    · exact pairwise_unique htail
    · exact List.pairwise_cons.mpr
        ⟨fun x hx => hhead x (mem_unique.mp hx), pairwise_unique htail⟩

theorem mem_sortedSymbols {addrs : List UInt32} {a : UInt32} :
    a ∈ sortedSymbols addrs ↔ a ∈ addrs := by
  unfold sortedSymbols
  rw [mem_unique, List.mem_insertionSort]

instance totalLe : Std.Total fun a b : UInt32 => a ≤ b := ⟨UInt32.le_total⟩

instance transLe : IsTrans UInt32 fun a b => a ≤ b := ⟨fun _ _ _ => UInt32.le_trans⟩

theorem pairwise_sortedSymbols (addrs : List UInt32) :
    (sortedSymbols addrs).Pairwise fun a b => a ≤ b :=
  pairwise_unique (List.pairwise_insertionSort _ addrs)

/-- The first symbol past `a` is no later than any other past it. -/
theorem find?_lt_le {a next : UInt32} : ∀ {addrs : List UInt32},
    addrs.Pairwise (fun a b => a ≤ b) → addrs.find? (fun b => decide (a < b)) = some next →
    ∀ b ∈ addrs, a < b → next ≤ b
  | [], _, h, _, _, _ => by cases h
  | c :: addrs, hsorted, h, b, hb, hlt => by
    obtain ⟨hhead, htail⟩ := List.pairwise_cons.mp hsorted
    by_cases hc : a < c
    · rw [List.find?_cons_of_pos (by simpa using hc)] at h
      cases h
      rcases List.mem_cons.mp hb with rfl | hb
      · exact UInt32.le_refl _
      · exact hhead b hb
    · rw [List.find?_cons_of_neg (by simpa using hc)] at h
      rcases List.mem_cons.mp hb with rfl | hb
      · exact absurd hlt hc
      · exact find?_lt_le htail h b hb hlt

/-- `next` is the lowest of some addresses past `a`. -/
structure IsLowestPast (addrs : List UInt32) (a next : UInt32) : Prop where
  mem : next ∈ addrs
  past : a < next
  le : ∀ b ∈ addrs, a < b → next ≤ b

theorem IsLowestPast.unique {addrs : List UInt32} {a next next' : UInt32}
    (h : IsLowestPast addrs a next) (h' : IsLowestPast addrs a next') : next = next' :=
  UInt32.le_antisymm (h.le next' h'.mem h'.past) (h'.le next h.mem h.past)

theorem IsLowestPast.congr {addrs addrs' : List UInt32} {a next : UInt32}
    (h : IsLowestPast addrs a next) (hmem : ∀ b, b ∈ addrs ↔ b ∈ addrs') :
    IsLowestPast addrs' a next :=
  ⟨(hmem next).mp h.mem, h.past, fun b hb => h.le b ((hmem b).mpr hb)⟩

/-- What `upper_bound` finds among the sorted symbols, if it finds anything. -/
theorem find?_sortedSymbols (addrs : List UInt32) (a : UInt32) :
    (∃ next, (sortedSymbols addrs).find? (fun b => decide (a < b)) = some next
        ∧ IsLowestPast addrs a next)
      ∨ (sortedSymbols addrs).find? (fun b => decide (a < b)) = none ∧ ∀ b ∈ addrs, ¬ a < b := by
  cases hfind : (sortedSymbols addrs).find? (fun b => decide (a < b)) with
  | none =>
    refine Or.inr ⟨rfl, fun b hb hlt => ?_⟩
    exact List.find?_eq_none.mp hfind b (mem_sortedSymbols.mpr hb) (by simpa using hlt)
  | some next =>
    refine Or.inl ⟨next, rfl, ?_, ?_, ?_⟩
    · exact mem_sortedSymbols.mp (List.mem_of_find?_eq_some hfind)
    · simpa using List.find?_some hfind
    · intro b hb hlt
      exact find?_lt_le (pairwise_sortedSymbols addrs) hfind b (mem_sortedSymbols.mpr hb) hlt

/-- Where a function ends when there is no symbol past it. -/
def Program.fallbackEnd (prog : Program) : UInt32 :=
  if prog.codeEnd == 0 then prog.part.flashend + 1 else prog.codeEnd

theorem extentEnd_of_isLowestPast {prog : Program} {addrs : List UInt32} {a next : UInt32}
    (hsym : prog.flashSymbols = sortedSymbols addrs) (h : IsLowestPast addrs a next) :
    prog.extentEnd a = next := by
  unfold Program.extentEnd
  rw [hsym]
  rcases find?_sortedSymbols addrs a with ⟨next', hfind, h'⟩ | ⟨-, hnone⟩
  · rw [hfind]
    exact h'.unique h
  · exact absurd h.past (hnone next h.mem)

theorem extentEnd_of_none {prog : Program} {addrs : List UInt32} {a : UInt32}
    (hsym : prog.flashSymbols = sortedSymbols addrs) (h : ∀ b ∈ addrs, ¬ a < b) :
    prog.extentEnd a = prog.fallbackEnd := by
  unfold Program.extentEnd
  rw [hsym]
  rcases find?_sortedSymbols addrs a with ⟨next, -, h'⟩ | ⟨hfind, -⟩
  · exact absurd h'.past (h next h'.mem)
  · rw [hfind]
    rfl

/-- The order in which the symbols came makes no difference, nor do repetitions. -/
theorem extentEnd_congr {prog prog' : Program} {addrs addrs' : List UInt32}
    (hsym : prog.flashSymbols = sortedSymbols addrs)
    (hsym' : prog'.flashSymbols = sortedSymbols addrs') (hmem : ∀ b, b ∈ addrs ↔ b ∈ addrs')
    (hend : prog.fallbackEnd = prog'.fallbackEnd) (a : UInt32) :
    prog.extentEnd a = prog'.extentEnd a := by
  rcases find?_sortedSymbols addrs a with ⟨next, -, hnext⟩ | ⟨-, hnone⟩
  · rw [extentEnd_of_isLowestPast hsym hnext, extentEnd_of_isLowestPast hsym' (hnext.congr hmem)]
  · have hnone' : ∀ b ∈ addrs', ¬ a < b := fun b hb => hnone b ((hmem b).mpr hb)
    rw [extentEnd_of_none hsym hnone, extentEnd_of_none hsym' hnone', hend]

/-! ## Loaded programs -/

/--
What the constructor establishes: the flash symbols are sorted, and hold every address there is,
except that an ELF may define addresses above flash, where none of them is.
-/
structure Program.Loaded (prog : Program) : Prop where
  sorted : prog.flashSymbols.Pairwise fun a b => a ≤ b
  covers : ∀ symbol, prog.address symbol ≠ noAddress →
    prog.address symbol ∈ prog.flashSymbols
      ∨ prog.part.flashend < prog.address symbol ∧ ∀ a ∈ prog.flashSymbols, a ≤ prog.part.flashend

/-- The program ends within flash. -/
def Program.FitsFlash (prog : Program) : Prop :=
  prog.codeEnd.toNat ≤ prog.part.flashend.toNat + 1

/-- A hex without labels has no symbol table to fall back on either. -/
theorem address_ofHex (part : Part) (symbols : SymbolMap) (codeEnd : UInt32) (symbol : String) :
    (Program.ofHex part symbols codeEnd).address symbol = (symbols[symbol]?).getD noAddress := by
  show (if !symbols.isEmpty then (symbols[symbol]?).getD noAddress else noAddress) = _
  cases hempty : symbols.isEmpty with
  | false => rfl
  | true =>
    rw [Std.TreeMap.getElem?_of_isEmpty hempty]
    rfl

theorem address_ofElf (part : Part) (firmware : Firmware) (symbol : String) :
    (Program.ofElf part firmware).address symbol
      = ((firmware.symbol.find? fun entry => symbol == entry.symbol).map AvrSymbol.addr).getD
          noAddress := by
  cases hfind : firmware.symbol.find? (fun entry => symbol == entry.symbol) <;>
    simp [Program.address, Program.ofElf, hfind]

theorem loaded_ofHex (part : Part) (symbols : SymbolMap) (codeEnd : UInt32) :
    (Program.ofHex part symbols codeEnd).Loaded := by
  refine ⟨pairwise_sortedSymbols _, fun symbol hdef => Or.inl ?_⟩
  rw [address_ofHex] at hdef ⊢
  cases hsym : symbols[symbol]? with
  | none =>
    rw [hsym] at hdef
    exact absurd rfl hdef
  | some addr =>
    refine mem_sortedSymbols.mpr (List.mem_map.mpr ⟨(symbol, addr), ?_, rfl⟩)
    exact Std.TreeMap.mem_toList_iff_getElem?_eq_some.mpr hsym

theorem loaded_ofElf (part : Part) (firmware : Firmware) :
    (Program.ofElf part firmware).Loaded := by
  refine ⟨pairwise_sortedSymbols _, fun symbol hdef => ?_⟩
  have hmem : ∀ a, a ∈ (Program.ofElf part firmware).flashSymbols
      ↔ (∃ entry ∈ firmware.symbol, entry.addr = a) ∧ ¬ part.flashend < a := by
    intro a
    show a ∈ sortedSymbols _ ↔ _
    rw [mem_sortedSymbols, List.mem_filter, List.mem_map]
    simp
  rw [address_ofElf] at hdef ⊢
  cases hfind : firmware.symbol.find? (fun entry => symbol == entry.symbol) with
  | none =>
    rw [hfind] at hdef
    exact absurd rfl hdef
  | some entry =>
    by_cases hflash : part.flashend < entry.addr
    · exact Or.inr ⟨hflash, fun a ha => UInt32.not_lt.mp ((hmem a).mp ha).2⟩
    · exact Or.inl ((hmem _).mpr ⟨⟨entry, List.mem_of_find?_eq_some hfind, rfl⟩, hflash⟩)

/-- What the constructor makes: the program of a hex with its map, or that of an ELF. -/
theorem load_cases {sim : Simavr ι} {files : Files} {imagePath : String} {clockHz : UInt32}
    {m : Mcu ι} (h : Mcu.load sim files imagePath clockHz = .ok m) :
    ((splitExtension imagePath).2 = ".hex" ∧ ∃ part symbols codeEnd c,
        files.readMapFile ((splitExtension imagePath).1 ++ ".map") = .ok symbols
          ∧ m = Mcu.ofProgram (Program.ofHex part symbols codeEnd) clockHz c)
      ∨ (splitExtension imagePath).2 ≠ ".hex" ∧ ∃ part firmware c,
        m = Mcu.ofProgram (Program.ofElf part firmware) clockHz c := by
  unfold Mcu.load at h
  simp only at h
  split at h
  · cases h
  · split at h
    · next hhex =>
      split at h
      · cases h
      · next hmap =>
        split at h
        · cases h
        · split at h
          · cases h
          · cases h
            exact Or.inl ⟨hhex.symm, _, _, _, _, hmap, rfl⟩
    · next helf =>
      split at h
      · cases h
      · cases h
        exact Or.inr ⟨Ne.symm helf, _, _, _, rfl⟩

/-- **Every program that is loaded is `Loaded`**, and nothing has been recorded yet. -/
theorem loaded_of_load {sim : Simavr ι} {files : Files} {imagePath : String} {clockHz : UInt32}
    {m : Mcu ι} (h : Mcu.load sim files imagePath clockHz = .ok m) :
    m.prog.Loaded ∧ ∃ c, m = Mcu.ofProgram m.prog clockHz c := by
  rcases load_cases h with ⟨-, part, symbols, codeEnd, c, -, rfl⟩ | ⟨-, part, firmware, c, rfl⟩
  · exact ⟨loaded_ofHex part symbols codeEnd, c, rfl⟩
  · exact ⟨loaded_ofElf part firmware, c, rfl⟩

theorem trap_of_load {sim : Simavr ι} {files : Files} {imagePath : String} {clockHz : UInt32}
    {m : Mcu ι} (h : Mcu.load sim files imagePath clockHz = .ok m) :
    m.prog.trap = trapOf m.prog.codeEnd := by
  rcases load_cases h with ⟨-, part, symbols, codeEnd, c, -, rfl⟩ | ⟨-, part, firmware, c, rfl⟩ <;>
    rfl

/-! ## Disjointness -/

/-- Only a defined symbol has an extent. -/
theorem contains_new {prog : Program} {symbol : String} {pc₀ pc : UInt32}
    (h : (Traced.new prog symbol pc₀).contains pc = true) :
    prog.address symbol ≠ noAddress ∧ prog.address symbol ≤ pc
      ∧ pc < prog.extentEnd (prog.address symbol) := by
  by_cases hdef : noAddress = prog.address symbol
  · -- an undefined symbol gets [1, 0)
    have hend : (Traced.new prog symbol pc₀).end = 0 := by
      show (if (noAddress == prog.address symbol) = true then 0 else _) = (0 : UInt32)
      rw [if_pos (by simpa using hdef)]
    simp only [Traced.contains, hend, Bool.and_eq_true, decide_eq_true_eq] at h
    exact absurd h.2 (UInt32.not_lt.mpr (UInt32.zero_le (a := pc)))
  · have hbegin : (Traced.new prog symbol pc₀).begin = prog.address symbol := by
      show (if (noAddress == prog.address symbol) = true then 1 else _) = prog.address symbol
      rw [if_neg (by simpa using hdef)]
    have hend : (Traced.new prog symbol pc₀).end = prog.extentEnd (prog.address symbol) := by
      show (if (noAddress == prog.address symbol) = true then 0 else _) = _
      rw [if_neg (by simpa using hdef)]
    simp only [Traced.contains, hbegin, hend, Bool.and_eq_true, decide_eq_true_eq] at h
    exact ⟨Ne.symm hdef, h.1, h.2⟩

/-- A symbol above flash has an empty extent. -/
theorem extentEnd_le_of_flashend_lt {prog : Program} (hfit : prog.FitsFlash) {a : UInt32}
    (ha : prog.part.flashend < a) (hall : ∀ b ∈ prog.flashSymbols, b ≤ prog.part.flashend) :
    prog.extentEnd a ≤ a := by
  have hnone : prog.flashSymbols.find? (fun b => decide (a < b)) = none := by
    rw [List.find?_eq_none]
    intro b hb hlt
    have hle : b ≤ a := UInt32.le_trans (hall b hb) (UInt32.le_of_lt ha)
    exact UInt32.not_lt.mpr hle (by simpa using hlt)
  have hnat : prog.part.flashend.toNat < a.toNat := ha
  have hword := a.toNat_lt
  unfold Program.extentEnd
  rw [hnone]
  show (if (prog.codeEnd == 0) = true then prog.part.flashend + 1 else prog.codeEnd) ≤ a
  rw [UInt32.le_iff_toNat_le]
  split
  · rw [UInt32.toNat_add, UInt32.toNat_one, Nat.mod_eq_of_lt (by omega)]
    omega
  · unfold Program.FitsFlash at hfit
    omega

/-- A function ends before a later one begins, or the later one is empty. -/
theorem extentEnd_le_of_lt {prog : Program} (hload : prog.Loaded) (hfit : prog.FitsFlash)
    {a : UInt32} {symbol : String} (hdef : prog.address symbol ≠ noAddress)
    (hlt : a < prog.address symbol) :
    prog.extentEnd a ≤ prog.address symbol
      ∨ prog.extentEnd (prog.address symbol) ≤ prog.address symbol := by
  rcases hload.covers symbol hdef with hmem | ⟨hflash, hall⟩
  · left
    unfold Program.extentEnd
    cases hfind : prog.flashSymbols.find? (fun b => decide (a < b)) with
    | none =>
      rw [List.find?_eq_none] at hfind
      exact absurd hlt (by simpa using hfind _ hmem)
    | some next => exact find?_lt_le hload.sorted hfind _ hmem hlt
  · exact Or.inr (extentEnd_le_of_flashend_lt hfit hflash hall)

/-- **Symbols at different addresses have disjoint extents.** -/
theorem disjoint_extents {prog : Program} (hload : prog.Loaded) (hfit : prog.FitsFlash)
    {symbol symbol' : String} (hne : prog.address symbol ≠ prog.address symbol')
    {pc₀ pc₀' pc : UInt32} (h : (Traced.new prog symbol pc₀).contains pc = true)
    (h' : (Traced.new prog symbol' pc₀').contains pc = true) : False := by
  obtain ⟨hdef, hle, hlt⟩ := contains_new h
  obtain ⟨hdef', hle', hlt'⟩ := contains_new h'
  rcases UInt32.lt_or_lt_of_ne hne with hab | hba
  · rcases extentEnd_le_of_lt hload hfit hdef' hab with hend | hend
    · exact UInt32.lt_irrefl _ (UInt32.lt_of_lt_of_le (UInt32.lt_of_lt_of_le hlt hend) hle')
    · exact UInt32.lt_irrefl _ (UInt32.lt_of_lt_of_le (UInt32.lt_of_lt_of_le hlt' hend) hle')
  · rcases extentEnd_le_of_lt hload hfit hdef hba with hend | hend
    · exact UInt32.lt_irrefl _ (UInt32.lt_of_lt_of_le (UInt32.lt_of_lt_of_le hlt' hend) hle)
    · exact UInt32.lt_irrefl _ (UInt32.lt_of_lt_of_le (UInt32.lt_of_lt_of_le hlt hend) hle)

end Avrsim
