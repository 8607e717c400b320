import Avrsim.Isa
import Avrsim.Properties.Extents

/-!
# Code labels

An ELF symbol table holds more than code labels: data symbols, which lie above flash, and absolute
constants, which are any number. The loader keeps what is not above flash. A constant that happens
to be a flash address is kept with the code labels, and ends the function it falls into.

* `ElfTable` — a symbol table with the sections of its symbols
* `CodeBounded` — the extent of a function, if only code labels counted
* `codeBounded_iff` — when it is the one that is derived
-/

namespace Avrsim

/-! ## Symbol tables -/

/-- The section of a symbol. -/
inductive Section where
  | code
  | data
  | absolute
deriving DecidableEq, Repr

/-- A symbol of an ELF, with its section. The loader does not see the section. -/
structure ElfSymbol where
  entry : AvrSymbol
  «section» : Section
deriving DecidableEq, Repr

/-- Where the linker puts the data space. -/
def dataBase : UInt32 := 0x800000

/-- A symbol table: names are unique, code is in flash and data is above it. -/
structure ElfTable (flashend : UInt32) where
  symbols : List ElfSymbol
  nodup : (symbols.map fun s => s.entry.symbol).Nodup
  code : ∀ s ∈ symbols, s.section = .code → s.entry.addr ≤ flashend
  data : ∀ s ∈ symbols, s.section = .data → dataBase ≤ s.entry.addr

namespace ElfTable

variable {flashend : UInt32}

/-- The code labels alone. -/
def codeLabels (table : ElfTable flashend) : ElfTable flashend where
  symbols := table.symbols.filter fun s => s.section == .code
  nodup := table.nodup.sublist (List.filter_sublist.map _)
  code := fun s hs => table.code s (List.mem_of_mem_filter hs)
  data := fun s hs => table.data s (List.mem_of_mem_filter hs)

/-- The addresses of the code labels. -/
def codeAddrs (table : ElfTable flashend) : List UInt32 :=
  table.codeLabels.symbols.map fun s => s.entry.addr

/-- The addresses in flash of the symbols that are no code labels. -/
def strays (table : ElfTable flashend) : List UInt32 :=
  ((table.symbols.filter fun s => s.section != .code).map fun s => s.entry.addr).filter
    fun addr => !(flashend < addr)

end ElfTable

/-- The program of a firmware with this symbol table. -/
def programOf {part : Part} (firmware : Firmware) (table : ElfTable part.flashend) : Program :=
  Program.ofElf part { firmware with symbol := table.symbols.map ElfSymbol.entry }

/-- The extent that `trace` derives for a symbol. -/
def Program.extent (prog : Program) (symbol : String) : UInt32 × UInt32 :=
  let item := Traced.new prog symbol 0
  (item.begin, item.end)

/-- The end that is meant: the lowest code label past `begin`, or the end of the code. -/
def ElfTable.CodeEnds {flashend : UInt32} (table : ElfTable flashend)
    (codeEnd begin «end» : UInt32) : Prop :=
  IsLowestPast table.codeAddrs begin «end» ∨ (∀ b ∈ table.codeAddrs, ¬ begin < b) ∧ «end» = codeEnd

/--
The other symbols make no difference to the extent of a function: it is what it is without them,
and it ends where the next code label begins, or at the end of the code.
-/
def CodeBounded {part : Part} (firmware : Firmware) (table : ElfTable part.flashend)
    (label : AvrSymbol) : Prop :=
  (programOf firmware table).extent label.symbol
      = (programOf firmware table.codeLabels).extent label.symbol
    ∧ ((programOf firmware table).extent label.symbol).1 = label.addr
    ∧ table.CodeEnds (programOf firmware table).codeEnd label.addr
        ((programOf firmware table).extent label.symbol).2

/--
Nothing else is in flash between the function and the next code label. With no code label past it,
the program is not empty, and the lowest of whatever else is past it is at the end of the code.
-/
def ElfTable.NoStray {flashend : UInt32} (table : ElfTable flashend) (codeEnd begin : UInt32) :
    Prop :=
  (∀ next, IsLowestPast table.codeAddrs begin next → ∀ x ∈ table.strays, ¬ (begin < x ∧ x < next))
    ∧ ((∀ b ∈ table.codeAddrs, ¬ begin < b) →
      codeEnd ≠ 0 ∧ ∀ x, IsLowestPast table.strays begin x → x = codeEnd)

/-! ## What the loader makes of a table -/

section

variable {part : Part} (firmware : Firmware) (table : ElfTable part.flashend)

/-- The addresses in flash are those of the code labels and the strays. -/
theorem mem_flashAddrs {addr : UInt32} :
    addr ∈ ((table.symbols.map ElfSymbol.entry).map AvrSymbol.addr).filter
        (fun addr => !(part.flashend < addr))
      ↔ addr ∈ table.codeAddrs ∨ addr ∈ table.strays := by
  unfold ElfTable.codeAddrs ElfTable.strays ElfTable.codeLabels
  simp only [List.map_map, List.mem_filter, List.mem_map, Function.comp_apply, Bool.not_eq_true',
    decide_eq_false_iff_not, beq_iff_eq, bne_iff_ne, ne_eq]
  constructor
  · rintro ⟨⟨s, hs, rfl⟩, hflash⟩
    by_cases hcode : s.section = .code
    · exact Or.inl ⟨s, ⟨hs, hcode⟩, rfl⟩
    · exact Or.inr ⟨⟨s, ⟨hs, hcode⟩, rfl⟩, hflash⟩
  · rintro (⟨s, ⟨hs, hcode⟩, rfl⟩ | ⟨⟨s, ⟨hs, -⟩, rfl⟩, hflash⟩)
    · exact ⟨⟨s, hs, rfl⟩, UInt32.not_lt.mpr (table.code s hs hcode)⟩
    · exact ⟨⟨s, hs, rfl⟩, hflash⟩

theorem codeAddrs_codeLabels : table.codeLabels.codeAddrs = table.codeAddrs := by
  unfold ElfTable.codeAddrs ElfTable.codeLabels
  simp only [List.filter_filter, Bool.and_self]

theorem strays_codeLabels : table.codeLabels.strays = [] := by
  unfold ElfTable.strays ElfTable.codeLabels
  simp [List.filter_filter]

/-- The end that is derived: the lowest flash address past `begin`, or the fallback. -/
theorem extentEnd_programOf (begin : UInt32) :
    (∃ next, IsLowestPast (table.codeAddrs ++ table.strays) begin next
        ∧ (programOf firmware table).extentEnd begin = next)
      ∨ (∀ b ∈ table.codeAddrs ++ table.strays, ¬ begin < b)
        ∧ (programOf firmware table).extentEnd begin
          = (programOf firmware table).fallbackEnd := by
  have hmem : ∀ b, b ∈ ((table.symbols.map ElfSymbol.entry).map AvrSymbol.addr).filter
        (fun addr => !(part.flashend < addr)) ↔ b ∈ table.codeAddrs ++ table.strays := by
    intro b
    rw [mem_flashAddrs, List.mem_append]
  rcases find?_sortedSymbols (((table.symbols.map ElfSymbol.entry).map AvrSymbol.addr).filter
      fun addr => !(part.flashend < addr)) begin with ⟨next, -, hnext⟩ | ⟨-, hnone⟩
  · exact Or.inl ⟨next, hnext.congr hmem, extentEnd_of_isLowestPast rfl hnext⟩
  · refine Or.inr ⟨fun b hb => hnone b ((hmem b).mpr hb), ?_⟩
    exact extentEnd_of_none rfl hnone

/-- The same for the code labels alone. -/
theorem extentEnd_codeLabels (begin : UInt32) :
    (∃ next, IsLowestPast table.codeAddrs begin next
        ∧ (programOf firmware table.codeLabels).extentEnd begin = next)
      ∨ (∀ b ∈ table.codeAddrs, ¬ begin < b)
        ∧ (programOf firmware table.codeLabels).extentEnd begin
          = (programOf firmware table).fallbackEnd := by
  have h := extentEnd_programOf firmware table.codeLabels begin
  rw [codeAddrs_codeLabels, strays_codeLabels, List.append_nil] at h
  exact h

theorem fallbackEnd_eq_codeEnd_iff (hflash : part.flashend < dataBase) :
    (programOf firmware table).fallbackEnd = (programOf firmware table).codeEnd
      ↔ (programOf firmware table).codeEnd ≠ 0 := by
  unfold Program.fallbackEnd
  by_cases hzero : (programOf firmware table).codeEnd = 0
  · have hpart : (programOf firmware table).part = part := rfl
    have hnat : part.flashend.toNat < 0x800000 := hflash
    have hsucc : part.flashend + 1 ≠ 0 := by
      intro h
      have htoNat := congrArg UInt32.toNat h
      rw [UInt32.toNat_add, UInt32.toNat_one, UInt32.toNat_zero,
        Nat.mod_eq_of_lt (by omega)] at htoNat
      omega
    simp [hzero, hpart, hsucc]
  · simp [hzero]

end

/-- Looking a name up in a table finds its one entry. -/
theorem find?_of_nodup {entries : List AvrSymbol} {label : AvrSymbol}
    (hnodup : (entries.map AvrSymbol.symbol).Nodup) (hmem : label ∈ entries) :
    entries.find? (fun entry => label.symbol == entry.symbol) = some label := by
  induction entries with
  | nil => cases hmem
  | cons entry entries ih =>
    rw [List.map_cons, List.nodup_cons] at hnodup
    rcases List.mem_cons.mp hmem with rfl | hmem
    · rw [List.find?_cons_of_pos (by simp)]
    · have hne : label.symbol ≠ entry.symbol := by
        intro heq
        exact hnodup.1 (heq ▸ List.mem_map_of_mem hmem)
      rw [List.find?_cons_of_neg (by simpa using hne)]
      exact ih hnodup.2 hmem

/-- The extent of a code label begins where the label is. -/
theorem extent_programOf {part : Part} (hflash : part.flashend < dataBase) (firmware : Firmware)
    {table : ElfTable part.flashend} {label : AvrSymbol}
    (hlabel : ⟨label, .code⟩ ∈ table.symbols) :
    (programOf firmware table).extent label.symbol
      = (label.addr, (programOf firmware table).extentEnd label.addr) := by
  have haddr : (programOf firmware table).address label.symbol = label.addr := by
    have hfind : (table.symbols.map ElfSymbol.entry).find?
        (fun entry => label.symbol == entry.symbol) = some label := by
      refine find?_of_nodup ?_ (List.mem_map_of_mem (f := ElfSymbol.entry) hlabel)
      rw [List.map_map]
      exact table.nodup
    show (Program.ofElf _ _).address label.symbol = _
    rw [address_ofElf, hfind]
    rfl
  have hne : (noAddress == label.addr) = false := by
    have hle : label.addr.toNat ≤ part.flashend.toNat := table.code _ hlabel rfl
    have hlt : part.flashend.toNat < 0x800000 := hflash
    rw [beq_eq_false_iff_ne]
    intro heq
    have htoNat : noAddress.toNat = 0xFFFFFFFF := rfl
    rw [heq] at htoNat
    omega
  simp only [Program.extent, Traced.new, haddr, hne]
  rfl

theorem mem_codeLabels {flashend : UInt32} {table : ElfTable flashend} {label : AvrSymbol}
    (h : ⟨label, .code⟩ ∈ table.symbols) : ⟨label, .code⟩ ∈ table.codeLabels.symbols :=
  List.mem_filter.mpr ⟨h, rfl⟩

/-! ## When only code labels count -/

section

variable {part : Part} (firmware : Firmware) (table : ElfTable part.flashend)

/-- Below a code label: the function ends there unless something else is in between. -/
theorem extentEnd_eq_next_iff {begin next : UInt32}
    (hnext : IsLowestPast table.codeAddrs begin next) :
    (programOf firmware table).extentEnd begin = next
      ↔ ∀ x ∈ table.strays, ¬ (begin < x ∧ x < next) := by
  rcases extentEnd_programOf firmware table begin with ⟨first, hfirst, hend⟩ | ⟨hall, -⟩
  · rw [hend]
    constructor
    · rintro rfl x hx ⟨hpast, hbefore⟩
      exact UInt32.not_lt.mpr (hfirst.le x (List.mem_append_right _ hx) hpast) hbefore
    · intro hbetween
      have hlowest : IsLowestPast (table.codeAddrs ++ table.strays) begin next := by
        refine ⟨List.mem_append_left _ hnext.mem, hnext.past, fun b hb hlt => ?_⟩
        rcases List.mem_append.mp hb with hb | hb
        · exact hnext.le b hb hlt
        · exact UInt32.not_lt.mp fun hlt' => hbetween b hb ⟨hlt, hlt'⟩
      exact hfirst.unique hlowest
  · exact absurd hnext.past (hall next (List.mem_append_left _ hnext.mem))

/-- Past every code label: the function ends with the code unless something else ends it. -/
theorem extentEnd_eq_codeEnd_iff (hflash : part.flashend < dataBase) {begin : UInt32}
    (hnone : ∀ b ∈ table.codeAddrs, ¬ begin < b) :
    ((programOf firmware table).extentEnd begin = (programOf firmware table).fallbackEnd
        ∧ (programOf firmware table).extentEnd begin = (programOf firmware table).codeEnd)
      ↔ (programOf firmware table).codeEnd ≠ 0
        ∧ ∀ x, IsLowestPast table.strays begin x → x = (programOf firmware table).codeEnd := by
  have hfallback := fallbackEnd_eq_codeEnd_iff firmware table hflash
  rcases extentEnd_programOf firmware table begin with ⟨first, hfirst, hend⟩ | ⟨hall, hend⟩
  · have hstray : IsLowestPast table.strays begin first := by
      rcases List.mem_append.mp hfirst.mem with hmem | hmem
      · exact absurd hfirst.past (hnone first hmem)
      · exact ⟨hmem, hfirst.past, fun b hb => hfirst.le b (List.mem_append_right _ hb)⟩
    rw [hend]
    constructor
    · rintro ⟨hfirstFallback, hfirstCode⟩
      refine ⟨hfallback.mp (hfirstFallback.symm.trans hfirstCode), fun x hx => ?_⟩
      exact (hx.unique hstray).trans hfirstCode
    · rintro ⟨hne, hlowest⟩
      have hfirstCode := hlowest first hstray
      exact ⟨hfirstCode.trans (hfallback.mpr hne).symm, hfirstCode⟩
  · rw [hend]
    constructor
    · rintro ⟨-, hcode⟩
      refine ⟨hfallback.mp hcode, fun x hx => ?_⟩
      exact absurd hx.past (hall x (List.mem_append_right _ hx.mem))
    · rintro ⟨hne, -⟩
      exact ⟨rfl, hfallback.mpr hne⟩

end

/--
**Only code labels bound a function exactly when no other symbol is in flash where it would end
it early**, or past the end of the code when there is no code label to end it.
-/
theorem codeBounded_iff {part : Part} (hflash : part.flashend < dataBase) (firmware : Firmware)
    {table : ElfTable part.flashend} {label : AvrSymbol}
    (hlabel : ⟨label, .code⟩ ∈ table.symbols) :
    CodeBounded firmware table label
      ↔ table.NoStray (firmware.flashbase + firmware.flashsize) label.addr := by
  have hcodeEnd : (programOf firmware table).codeEnd
      = firmware.flashbase + firmware.flashsize := rfl
  unfold CodeBounded ElfTable.NoStray ElfTable.CodeEnds
  rw [extent_programOf hflash firmware hlabel,
    extent_programOf hflash firmware (mem_codeLabels hlabel), ← hcodeEnd]
  simp only [Prod.mk.injEq, true_and]
  rcases extentEnd_codeLabels firmware table label.addr with ⟨next, hnext, hend⟩ | ⟨hnone, hend⟩
  · -- there is a code label past the function
    have hnot : ¬ ∀ b ∈ table.codeAddrs, ¬ label.addr < b := fun h => h next hnext.mem hnext.past
    have hiff := extentEnd_eq_next_iff firmware table hnext
    rw [hend]
    constructor
    · rintro ⟨heq, -⟩
      refine ⟨fun next' hnext' => ?_, fun h => absurd h hnot⟩
      obtain rfl := hnext.unique hnext'
      exact hiff.mp heq
    · rintro ⟨hbetween, -⟩
      have heq := hiff.mpr (hbetween next hnext)
      rw [heq]
      exact ⟨rfl, Or.inl hnext⟩
  · -- there is none
    have hnext : ∀ next, ¬ IsLowestPast table.codeAddrs label.addr next :=
      fun next h => hnone next h.mem h.past
    have hiff := extentEnd_eq_codeEnd_iff firmware table hflash hnone
    rw [hend]
    constructor
    · rintro ⟨heq, hends⟩
      obtain ⟨-, hcode⟩ := hends.resolve_left (hnext _)
      exact ⟨fun next h => absurd h (hnext next), fun _ => hiff.mp ⟨heq, hcode⟩⟩
    · rintro ⟨-, hlast⟩
      obtain ⟨heq, hcode⟩ := hiff.mpr (hlast hnone)
      exact ⟨heq, Or.inr ⟨hnone, hcode⟩⟩

/-- Two functions and a buffer. -/
def bufferTable : ElfTable Isa.atmega328p.flashend where
  symbols := [⟨⟨"main", 0⟩, .code⟩, ⟨⟨"f", 4⟩, .code⟩, ⟨⟨"buffer", 0x800100⟩, .data⟩]
  nodup := by decide
  code := by decide
  data := by decide

/-- The two functions of `Isa.turns`, as an ELF without a symbol table. -/
def turnsFirmware : Firmware := Isa.firmware [0x0000, 0x0000, 0x0000, 0xCFFC] []

/-- A buffer makes no difference. -/
theorem codeBounded_iff_buffer : CodeBounded turnsFirmware bufferTable ⟨"f", 4⟩ := by
  have hflash : Isa.atmega328p.flashend < dataBase := by decide
  have hlabel : ⟨⟨"f", 4⟩, .code⟩ ∈ bufferTable.symbols := by decide
  refine (codeBounded_iff hflash turnsFirmware hlabel).mpr ?_
  have hcode : ∀ b ∈ bufferTable.codeAddrs, ¬ 4 < b := by
    have hall : bufferTable.codeAddrs.all (fun b => !(4 < b)) = true := by decide
    simpa using hall
  have hstrays : bufferTable.strays = [] := by decide
  refine ⟨fun next h => absurd h.past (hcode next h.mem), fun _ => ⟨by decide, ?_⟩⟩
  intro x h
  have hmem := h.mem
  rw [hstrays] at hmem
  cases hmem

/-- The same functions, and a constant 6. -/
def constantTable : ElfTable Isa.atmega328p.flashend where
  symbols := [⟨⟨"main", 0⟩, .code⟩, ⟨⟨"f", 4⟩, .code⟩, ⟨⟨"LIMIT", 6⟩, .absolute⟩]
  nodup := by decide
  code := by decide
  data := by decide

/-- The constant cuts `f` short: it ends at 6, and without the constant at 8. -/
theorem not_codeBounded_constant :
    (programOf turnsFirmware constantTable).extent "f" = (4, 6)
      ∧ (programOf turnsFirmware constantTable.codeLabels).extent "f" = (4, 8)
      ∧ ¬ CodeBounded turnsFirmware constantTable ⟨"f", 4⟩ := by
  have hfull : (programOf turnsFirmware constantTable).extent "f" = (4, 6) := by decide +kernel
  have hcode : (programOf turnsFirmware constantTable.codeLabels).extent "f" = (4, 8) := by
    decide +kernel
  refine ⟨hfull, hcode, ?_⟩
  rintro ⟨hsame, -⟩
  have hne : ((4, 6) : UInt32 × UInt32) = (4, 8) := by
    rw [← hfull, ← hcode]
    exact hsame
  exact absurd hne (by decide)

end Avrsim
