import Avrsim.Infra.Strtoul
import Avrsim.Loader

/-!
# Map files

`readMapFile` of `mcu.cpp`. avra writes a symbol to a line: its name, a type, its value in hex.
Labels have type `L`, and their values are word addresses.

* `fields` — the first three words of a line, as `>>` takes them
* `readMapText` — the labels of a map file
* `Disk` — the files of an image, the map file as text
* `readMapText_of_mapOf` — a map file is read as its labels, whatever the order of its rows
-/

namespace Avrsim

open Infra.Strtoul

/-- Base of the addresses a map file records. -/
def hexRadix : Nat := 16

/-- `stream >> word`: skip white space, then take what is not. Fails at the end of the stream. -/
def extract (stream : List Char) : Option (List Char × List Char) :=
  let stream := stream.dropWhile isSpace
  if stream.isEmpty then none
  else some (stream.takeWhile fun c => !isSpace c, stream.dropWhile fun c => !isSpace c)

/-- Name, type and address of a line that has them. -/
def fields (line : List Char) : Option (List Char × List Char × List Char) := do
  let (name, stream) ← extract line
  let (type, stream) ← extract stream
  let (addrText, _) ← extract stream
  return (name, type, addrText)

/-- `std::stoul`. What it throws ends the process, as `readMapFile` is `noexcept`. -/
def stoul (radix : Nat) (text : List Char) : Except String UInt64 :=
  match strtoul radix text with
  | .value n => .ok n
  | .none | .outOfRange => .error "stoul"

/-- One pass of the loop in `readMapFile`. -/
def readMapLine (symbols : SymbolMap) (line : List Char) : Except String SymbolMap :=
  match fields line with
  | none => .ok symbols
  | some (name, type, addrText) =>
    if "L".toList ≠ type then .ok symbols
    else do
      let addr := (← stoul hexRadix addrText).toUInt32
      return symbols.insert (String.ofList name) (addr * bytesPerWord)

/-- The labels of a map file. What follows the last newline is a line too, and may be empty. -/
def readMapText (text : List Char) : Except String SymbolMap :=
  (text.splitOn '\n').foldlM readMapLine ∅

/-- What is on disk: files as text, and what the readers of simavr make of them. -/
structure Disk where
  text : String → Option String
  ihexChunks : String → List IhexChunk
  firmware : String → Option Firmware

namespace Disk

def readMapFile (disk : Disk) (path : String) : Except String SymbolMap :=
  match disk.text path with
  | none => .error ("cannot read map file " ++ path)
  | some text => readMapText text.toList

def files (disk : Disk) : Files where
  readMapFile := disk.readMapFile
  readIhexChunks := disk.ihexChunks
  elfReadFirmware := disk.firmware

end Disk

/-! ## Rows -/

/-- Name and address, as written, of a line that is a label. -/
def labelRow? (line : List Char) : Option (List Char × List Char) :=
  match fields line with
  | none => none
  | some (name, type, addrText) => if "L".toList ≠ type then none else some (name, addrText)

/-- The labels of a map file, row by row. -/
def labelRows (text : List Char) : List (List Char × List Char) :=
  (text.splitOn '\n').filterMap labelRow?

/-- The row of a label gives its word address, in hex. -/
structure RowOf (label : AvrSymbol) (row : List Char × List Char) : Prop where
  name : row.1 = label.symbol.toList
  ne : row.2 ≠ []
  hex : ∀ c ∈ row.2, isDigit hexRadix c = true
  addr : bytesPerWord.toNat * valueOf hexRadix row.2 = label.addr.toNat

/-- A map file of some labels: one row for each, in any order, and any number of other rows. -/
def MapOf (labels : List AvrSymbol) (text : List Char) : Prop :=
  ∃ ordered : List AvrSymbol, ordered.Perm labels ∧ List.Forall₂ RowOf ordered (labelRows text)

/-- What a row of a label does to the map. -/
def readRow (symbols : SymbolMap) (row : List Char × List Char) : Except String SymbolMap := do
  let addr := (← stoul hexRadix row.2).toUInt32
  return symbols.insert (String.ofList row.1) (addr * bytesPerWord)

/-- Only the rows of labels are read. -/
theorem readMapText_eq (text : List Char) :
    readMapText text = (labelRows text).foldlM readRow ∅ := by
  unfold readMapText labelRows
  rw [List.foldlM_filterMap]
  congr 1
  funext symbols line
  unfold readMapLine labelRow? readRow
  cases fields line with
  | none => rfl
  | some row =>
    obtain ⟨name, type, addrText⟩ := row
    by_cases htype : "L".toList = type
    · simp only [ne_eq, htype, not_true_eq_false, if_false]
    · simp only [ne_eq, htype, not_false_eq_true, if_true]
      rfl

theorem readRow_of_rowOf {label : AvrSymbol} {row : List Char × List Char} (h : RowOf label row)
    (symbols : SymbolMap) : readRow symbols row = .ok (symbols.insert label.symbol label.addr) := by
  have hword := label.addr.toNat_lt
  have haddr : 2 * valueOf 16 row.2 = label.addr.toNat := h.addr
  have hlt : valueOf 16 row.2 < 2 ^ 64 := by omega
  have hread : stoul hexRadix row.2 = .ok (UInt64.ofNat (valueOf 16 row.2)) := by
    show (match strtoul 16 row.2 with | .value n => _ | .none | .outOfRange => _) = _
    rw [strtoul_hexDigits h.ne h.hex, Conversion.ofNat, if_pos hlt]
  have hvalue : (UInt64.ofNat (valueOf 16 row.2)).toUInt32 * bytesPerWord = label.addr := by
    have hbytes : bytesPerWord.toNat = 2 := rfl
    rw [← UInt32.toNat_inj, UInt32.toNat_mul, UInt64.toNat_toUInt32,
      UInt64.toNat_ofNat_of_lt' hlt, hbytes]
    omega
  unfold readRow
  rw [hread]
  show Except.ok _ = _
  rw [hvalue, h.name, String.ofList_toList]

/-- Insert labels into a map, in order. -/
def insertAll (symbols : SymbolMap) (labels : List AvrSymbol) : SymbolMap :=
  labels.foldl (fun symbols label => symbols.insert label.symbol label.addr) symbols

/-- The rows of some labels are read as those labels. -/
theorem foldlM_readRow {labels : List AvrSymbol} {rows : List (List Char × List Char)}
    (h : List.Forall₂ RowOf labels rows) (symbols : SymbolMap) :
    rows.foldlM readRow symbols = .ok (insertAll symbols labels) := by
  induction h generalizing symbols with
  | nil => rfl
  | cons hrow _ ih =>
    rw [List.foldlM_cons, readRow_of_rowOf hrow]
    exact ih _

theorem getElem?_insertAll {labels : List AvrSymbol}
    (hnodup : (labels.map AvrSymbol.symbol).Nodup) {symbols : SymbolMap} {name : String}
    {addr : UInt32} :
    (insertAll symbols labels)[name]? = some addr
      ↔ ⟨name, addr⟩ ∈ labels
        ∨ name ∉ labels.map AvrSymbol.symbol ∧ symbols[name]? = some addr := by
  induction labels generalizing symbols with
  | nil => simp [insertAll]
  | cons label labels ih =>
    rw [List.map_cons, List.nodup_cons] at hnodup
    show (insertAll (symbols.insert label.symbol label.addr) labels)[name]? = some addr ↔ _
    rw [ih hnodup.2, Std.TreeMap.getElem?_insert, List.mem_cons, List.map_cons, List.mem_cons,
      not_or]
    by_cases hname : name = label.symbol
    · subst hname
      have hnew : ⟨label.symbol, addr⟩ ∉ labels := fun hmem =>
        hnodup.1 (List.mem_map.mpr ⟨_, hmem, rfl⟩)
      have heq : (⟨label.symbol, addr⟩ : AvrSymbol) = label ↔ label.addr = addr := by
        cases label
        simp [eq_comm]
      simp [hnodup.1, hnew, heq]
    · have heq : (⟨name, addr⟩ : AvrSymbol) ≠ label := by
        rintro rfl
        exact hname rfl
      simp [hname, heq, Ne.symm hname]

/-- **A map file is read as its labels**, whatever the order of its rows. -/
theorem readMapText_of_mapOf {labels : List AvrSymbol} {text : List Char} (h : MapOf labels text)
    (hnodup : (labels.map AvrSymbol.symbol).Nodup) :
    ∃ symbols, readMapText text = .ok symbols
      ∧ ∀ name addr, symbols[name]? = some addr ↔ ⟨name, addr⟩ ∈ labels := by
  obtain ⟨ordered, hperm, hrows⟩ := h
  refine ⟨insertAll ∅ ordered, ?_, fun name addr => ?_⟩
  · rw [readMapText_eq, foldlM_readRow hrows]
  · rw [getElem?_insertAll ((hperm.map _).nodup_iff.mpr hnodup), hperm.mem_iff]
    simp

end Avrsim
