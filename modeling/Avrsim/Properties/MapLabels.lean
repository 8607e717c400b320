import Avrsim.MapFile
import Avrsim.Run
import Avrsim.Properties.Extents
import Avrsim.Properties.HexFlash

/-!
# The labels of a map file

What `address` and `has` answer after a hex has been loaded, told from the text of its map. A row
says something when its second word is `L` and it has a third: the address of its first word. A
later row for the same word wins, and nothing else in the file counts.

* `words` — a line cut at its white space
* `rowsOf` — what the rows for a name give as its address, in the order of the file
* `load_map_exact` — the answers are those of the last row for each name
-/

namespace Avrsim

open Infra.Strtoul

variable {ι : Type}

/-! ## Words -/

/-- The words of a line. -/
def words (line : List Char) : List (List Char) :=
  (line.splitOnP isSpace).filter fun word => !word.isEmpty

theorem words_nil : words [] = [] := by
  unfold words
  rw [List.splitOnP_nil]
  rfl

theorem words_cons_of_isSpace {c : Char} (hc : isSpace c = true) (line : List Char) :
    words (c :: line) = words line := by
  unfold words
  rw [List.splitOnP_cons_eq_if_modifyHead, if_pos hc]
  exact List.filter_cons_of_neg (by simp)

theorem words_dropWhile (line : List Char) : words (line.dropWhile isSpace) = words line := by
  induction line with
  | nil => rfl
  | cons c line ih =>
    by_cases hc : isSpace c = true
    · rw [List.dropWhile_cons_of_pos hc, ih, words_cons_of_isSpace hc]
    · rw [List.dropWhile_cons_of_neg hc]

/-- A word is what stands before the first white space. -/
theorem words_append {word rest : List Char} (hne : word ≠ [])
    (hword : ∀ c ∈ word, isSpace c = false) (hrest : ∀ c ∈ rest.head?, isSpace c = true) :
    words (word ++ rest) = word :: words rest := by
  have hkeep : (!word.isEmpty) = true := by simpa using hne
  cases rest with
  | nil =>
    rw [List.append_nil, words_nil]
    unfold words
    rw [List.splitOnP_eq_singleton hword]
    exact List.filter_cons_of_pos hkeep
  | cons c rest =>
    have hc := hrest c rfl
    rw [words_cons_of_isSpace hc]
    unfold words
    rw [List.splitOnP_append_cons_of_forall_mem hword c hc]
    exact List.filter_cons_of_pos hkeep

/-- `>>` takes the words one by one. -/
theorem words_of_extract {stream word rest : List Char} (h : extract stream = some (word, rest)) :
    words stream = word :: words rest := by
  unfold extract at h
  cases hskip : stream.dropWhile isSpace with
  | nil =>
    rw [hskip] at h
    cases h
  | cons c cs =>
    have hc : ¬ isSpace c = true := by
      have hhead := List.head?_dropWhile_not isSpace stream
      rw [hskip] at hhead
      simpa using hhead
    rw [hskip] at h
    obtain ⟨rfl, rfl⟩ : (c :: cs).takeWhile (fun c => !isSpace c) = word
        ∧ (c :: cs).dropWhile (fun c => !isSpace c) = rest := by
      simpa using h
    have hword : ∀ d ∈ (c :: cs).takeWhile (fun c => !isSpace c), isSpace d = false := by
      intro d hd
      simpa using List.mem_takeWhile_imp hd
    have hrest : ∀ d ∈ ((c :: cs).dropWhile fun c => !isSpace c).head?, isSpace d = true := by
      intro d hd
      have hhead := List.head?_dropWhile_not (fun c => !isSpace c) (c :: cs)
      rw [hd] at hhead
      simpa using hhead
    have hne : (c :: cs).takeWhile (fun c => !isSpace c) ≠ [] := by
      rw [List.takeWhile_cons_of_pos (by simpa using hc)]
      exact List.cons_ne_nil _ _
    rw [← words_append hne hword hrest, List.takeWhile_append_dropWhile, ← hskip, words_dropWhile]

theorem words_of_extract_none {stream : List Char} (h : extract stream = none) :
    words stream = [] := by
  unfold extract at h
  cases hskip : stream.dropWhile isSpace with
  | nil => rw [← words_dropWhile, hskip, words_nil]
  | cons c cs =>
    rw [hskip] at h
    cases h

/-! ## Rows -/

/-- The address of a line that is a label of this name. -/
def addressText? (name line : List Char) : Option (List Char) :=
  match words line with
  | first :: type :: addrText :: _ =>
    if first = name ∧ type = "L".toList then some addrText else none
  | _ => none

/-- The addresses that the labels of this name have, row by row. -/
def rowsOf (name : List Char) (text : List Char) : List (List Char) :=
  (text.splitOn '\n').filterMap (addressText? name)

/-- Rows that change places with a neighbour, any number of times, unless both are for one name. -/
inductive Reordered : List (List Char) → List (List Char) → Prop
  | refl (lines : List (List Char)) : Reordered lines lines
  | swap {lines before after : List (List Char)} {row row' : List Char}
      (reordered : Reordered lines (before ++ row :: row' :: after))
      (names : ∀ name, addressText? name row = none ∨ addressText? name row' = none) :
    Reordered lines (before ++ row' :: row :: after)

theorem filterMap_of_reordered {lines lines' : List (List Char)} (h : Reordered lines lines')
    (name : List Char) :
    lines'.filterMap (addressText? name) = lines.filterMap (addressText? name) := by
  induction h with
  | refl => rfl
  | @swap before after row row' _ names ih =>
    rw [← ih]
    rcases names name with hnone | hnone <;> simp [List.filterMap_cons, hnone]

/-- The words that count are the three that `readMapFile` extracts. -/
theorem addressText?_eq (name line : List Char) :
    addressText? name line
      = ((labelRow? line).filter fun row => row.1 = name).map fun row => row.2 := by
  unfold addressText? labelRow? fields
  cases hname : extract line with
  | none =>
    rw [words_of_extract_none hname]
    rfl
  | some row =>
    rw [words_of_extract hname]
    cases htype : extract row.2 with
    | none =>
      rw [words_of_extract_none htype]
      simp [htype]
    | some row' =>
      rw [words_of_extract htype]
      cases haddr : extract row'.2 with
      | none =>
        rw [words_of_extract_none haddr]
        simp [htype, haddr]
      | some row'' =>
        rw [words_of_extract haddr]
        by_cases hlabel : row'.1 = ['L']
        · by_cases hfirst : row.1 = name <;> simp [htype, haddr, hlabel, hfirst]
        · simp [htype, haddr, hlabel, Ne.symm hlabel]

theorem rowsOf_eq (name text : List Char) :
    rowsOf name text = ((labelRows text).filter fun row => row.1 = name).map fun row => row.2 := by
  unfold rowsOf labelRows
  rw [List.filter_filterMap, List.map_filterMap]
  congr 1
  funext line
  exact addressText?_eq name line

/-! ## The map that is read -/

/-- The byte address that a third word stands for. -/
def byteAddress (addrText : List Char) : UInt32 :=
  (strtoul hexRadix addrText).toWord.toUInt32 * bytesPerWord

theorem readRow_eq_ok {symbols symbols' : SymbolMap} {row : List Char × List Char}
    (h : readRow symbols row = .ok symbols') :
    symbols' = symbols.insert (String.ofList row.1) (byteAddress row.2) := by
  unfold readRow stoul at h
  unfold byteAddress
  cases hread : strtoul hexRadix row.2 with
  | none =>
    rw [hread] at h
    cases h
  | value n =>
    rw [hread] at h
    cases h
    rfl
  | outOfRange =>
    rw [hread] at h
    cases h

/-- **The last row for a name wins.** -/
theorem getElem?_foldlM_readRow {rows : List (List Char × List Char)} :
    ∀ {symbols symbols' : SymbolMap}, rows.foldlM readRow symbols = .ok symbols' →
      ∀ name : String, symbols'[name]?
        = ((((rows.filter fun row => row.1 = name.toList).map fun row => row.2).getLast?).map
            byteAddress).or symbols[name]? := by
  induction rows with
  | nil =>
    intro symbols symbols' h name
    cases h
    rfl
  | cons row rows ih =>
    intro symbols symbols' h name
    rw [List.foldlM_cons] at h
    obtain ⟨symbols₁, hrow, hrows⟩ := bind_eq_ok.mp h
    rw [ih hrows, readRow_eq_ok hrow, Std.TreeMap.getElem?_insert]
    by_cases hname : row.1 = name.toList
    · have hkey : String.ofList row.1 = name := by rw [hname, String.ofList_toList]
      rw [List.filter_cons_of_pos (by simpa using hname), List.map_cons, List.getLast?_cons]
      -- this row counts when no later one does
      cases (((rows.filter fun row => row.1 = name.toList).map fun row => row.2).getLast?) <;>
        simp [hkey]
    · have hkey : String.ofList row.1 ≠ name := by
        rintro rfl
        exact hname String.toList_ofList.symm
      rw [List.filter_cons_of_neg (by simpa using hname), if_neg (by simpa using hkey)]

theorem getElem?_of_readMapText {text : List Char} {symbols : SymbolMap}
    (h : readMapText text = .ok symbols) (name : String) :
    symbols[name]? = (rowsOf name.toList text).getLast?.map byteAddress := by
  rw [readMapText_eq] at h
  rw [getElem?_foldlM_readRow h, rowsOf_eq]
  simp

/-! ## Addresses -/

/-- An address in words is doubled, so it is even and not the mark of an undefined symbol. -/
theorem byteAddress_ne_noAddress (addrText : List Char) : byteAddress addrText ≠ noAddress := by
  intro h
  have heven : (byteAddress addrText).toNat % 2 = 0 := by
    unfold byteAddress
    have htwo : bytesPerWord.toNat = 2 := rfl
    rw [UInt32.toNat_mul, htwo]
    omega
  rw [h] at heven
  exact absurd heven (by decide)

/-- A hexadecimal number, with or without a mark before its digits. -/
inductive HexNumber : List Char → Nat → Prop
  | digits {digits : List Char} (ne : digits ≠ []) (hex : ∀ c ∈ digits, isDigit 16 c = true) :
    HexNumber digits (valueOf 16 digits)
  | marked {x : Char} {digits : List Char} (mark : x = 'x' ∨ x = 'X') (ne : digits ≠ [])
      (hex : ∀ c ∈ digits, isDigit 16 c = true) :
    HexNumber ('0' :: x :: digits) (valueOf 16 digits)

theorem strtoul_hexNumber {addrText : List Char} {value : Nat} (h : HexNumber addrText value) :
    strtoul hexRadix addrText = Conversion.ofNat value := by
  cases h with
  | digits ne hex => exact strtoul_hexDigits ne hex
  | @marked x digits mark ne hex =>
    have h := strtoul_hex (Or.inr rfl) mark ne hex stops_nil
    rwa [List.append_nil] at h

theorem toNat_byteAddress {addrText : List Char} {value : Nat} (h : HexNumber addrText value)
    (hlt : value < 2 ^ 31) : (byteAddress addrText).toNat = 2 * value := by
  have htwo : bytesPerWord.toNat = 2 := rfl
  have hword : (Conversion.ofNat value).toWord.toNat = value := by
    rw [toNat_toWord_ofNat]
    omega
  unfold byteAddress
  rw [strtoul_hexNumber h, UInt32.toNat_mul, UInt64.toNat_toUInt32, hword, htwo]
  omega

/-! ## After loading the hex -/

/-- A hex has been loaded, with this text as its map. -/
structure LoadedHex (sim : Simavr ι) (disk : Disk) (imagePath : String) (mapText : String)
    (m : Mcu ι) : Prop where
  hex : (splitExtension imagePath).2 = ".hex"
  map : disk.text ((splitExtension imagePath).1 ++ ".map") = some mapText
  load : ∃ clockHz, Mcu.load sim disk.files imagePath clockHz = .ok m

theorem prog_of_loadedHex {sim : Simavr ι} {disk : Disk} {imagePath mapText : String} {m : Mcu ι}
    (h : LoadedHex sim disk imagePath mapText m) :
    ∃ part symbols codeEnd, m.prog = Program.ofHex part symbols codeEnd
      ∧ readMapText mapText.toList = .ok symbols := by
  obtain ⟨clockHz, hload⟩ := h.load
  have hread : disk.files.readMapFile ((splitExtension imagePath).1 ++ ".map")
      = readMapText mapText.toList := by
    simp only [Disk.files, Disk.readMapFile, h.map]
  rcases load_cases hload with ⟨-, part, symbols, codeEnd, c, hmap, rfl⟩ | ⟨helf, -⟩
  · exact ⟨part, symbols, codeEnd, rfl, hread ▸ hmap⟩
  · exact absurd h.hex helf

theorem address_of_loadedHex {sim : Simavr ι} {disk : Disk} {imagePath mapText : String} {m : Mcu ι}
    (h : LoadedHex sim disk imagePath mapText m) (name : String) :
    m.address name
      = ((rowsOf name.toList mapText.toList).getLast?.map byteAddress).getD noAddress := by
  obtain ⟨part, symbols, codeEnd, hprog, hread⟩ := prog_of_loadedHex h
  show m.prog.address name = _
  rw [hprog, address_ofHex, getElem?_of_readMapText hread]

/-- The answers about every symbol are those of the last row for its name. -/
structure MapExact (m : Mcu ι) (mapText : String) : Prop where
  address : ∀ (name : String) (addrText : List Char) (value : Nat),
    (rowsOf name.toList mapText.toList).getLast? = some addrText → HexNumber addrText value →
      value < 2 ^ 31 → (m.address name).toNat = 2 * value
  undefined : ∀ name : String, rowsOf name.toList mapText.toList = [] → m.address name = noAddress
  has : ∀ name : String, m.has name = true ↔ rowsOf name.toList mapText.toList ≠ []
  defined : ∀ name : String, rowsOf name.toList mapText.toList ≠ [] → m.address name ≠ noAddress

theorem mapExact_of_loadedHex {sim : Simavr ι} {disk : Disk} {imagePath mapText : String}
    {m : Mcu ι} (h : LoadedHex sim disk imagePath mapText m) : MapExact m mapText := by
  have haddress := address_of_loadedHex h
  have hundefined : ∀ name : String, rowsOf name.toList mapText.toList = [] →
      m.address name = noAddress := by
    intro name hnone
    rw [haddress, hnone]
    rfl
  have hdefined : ∀ name : String, rowsOf name.toList mapText.toList ≠ [] →
      m.address name ≠ noAddress := by
    intro name hsome
    rw [haddress, List.getLast?_eq_some_getLast hsome]
    exact byteAddress_ne_noAddress _
  refine ⟨?_, hundefined, fun name => ?_, hdefined⟩
  · intro name addrText value hlast hvalue hlt
    rw [haddress, hlast]
    exact toNat_byteAddress hvalue hlt
  · have hhas : m.has name = true ↔ m.address name ≠ noAddress := by
      show (noAddress != m.address name) = true ↔ _
      rw [bne_iff_ne]
      exact ne_comm
    rw [hhas]
    exact ⟨fun hne hnone => hne (hundefined name hnone), hdefined name⟩

theorem foldlM_readRow_of_hexNumber {rows : List (List Char × List Char)}
    (hrows : ∀ row ∈ rows, ∃ value, HexNumber row.2 value ∧ value < 2 ^ 31) (symbols : SymbolMap) :
    ∃ symbols', rows.foldlM readRow symbols = .ok symbols' := by
  induction rows generalizing symbols with
  | nil => exact ⟨symbols, rfl⟩
  | cons row rows ih =>
    obtain ⟨value, hvalue, hlt⟩ := hrows row List.mem_cons_self
    have hread : stoul hexRadix row.2 = .ok (UInt64.ofNat value) := by
      have hlt' : value < 2 ^ 64 := Nat.lt_of_lt_of_le hlt (by decide)
      unfold stoul
      rw [strtoul_hexNumber hvalue, Conversion.ofNat, if_pos hlt']
    rw [List.foldlM_cons, readRow, hread]
    exact ih (fun row' hmem => hrows row' (List.mem_cons_of_mem _ hmem)) _

/-- A map is read to its end when every label in it has a hexadecimal number below 2^31. -/
theorem readMapText_of_hexNumber {text : List Char}
    (hrows : ∀ name, ∀ addrText ∈ rowsOf name text,
      ∃ value, HexNumber addrText value ∧ value < 2 ^ 31) :
    ∃ symbols, readMapText text = .ok symbols := by
  rw [readMapText_eq]
  refine foldlM_readRow_of_hexNumber (fun row hrow => hrows row.1 row.2 ?_) ∅
  rw [rowsOf_eq]
  exact List.mem_map.mpr ⟨row, List.mem_filter.mpr ⟨hrow, by simp⟩, rfl⟩

/--
**The map file is read exactly.** Two maps with the same rows for every name give the same answers,
so lines that are no label do not matter, nor does the order of rows for different names.
-/
theorem load_map_exact {sim : Simavr ι} {disk : Disk} {imagePath mapText : String} {m : Mcu ι}
    (h : LoadedHex sim disk imagePath mapText m) :
    MapExact m mapText
      ∧ (∀ {disk' : Disk} {imagePath' mapText' : String} {m' : Mcu ι},
        LoadedHex sim disk' imagePath' mapText' m' →
        (∀ name, rowsOf name mapText'.toList = rowsOf name mapText.toList) →
        ∀ name, m'.address name = m.address name ∧ m'.has name = m.has name)
      ∧ ∀ {disk' : Disk} {imagePath' mapText' : String} {m' : Mcu ι},
        LoadedHex sim disk' imagePath' mapText' m' →
        Reordered (mapText.toList.splitOn '\n') (mapText'.toList.splitOn '\n') →
        ∀ name, m'.address name = m.address name ∧ m'.has name = m.has name := by
  have hsame : ∀ {disk' : Disk} {imagePath' mapText' : String} {m' : Mcu ι},
      LoadedHex sim disk' imagePath' mapText' m' →
      (∀ name, rowsOf name mapText'.toList = rowsOf name mapText.toList) →
      ∀ name, m'.address name = m.address name ∧ m'.has name = m.has name := by
    intro disk' imagePath' mapText' m' h' hrows name
    have haddress : m'.address name = m.address name := by
      rw [address_of_loadedHex h', address_of_loadedHex h, hrows]
    exact ⟨haddress, congrArg (noAddress != ·) haddress⟩
  refine ⟨mapExact_of_loadedHex h, hsame, ?_⟩
  intro disk' imagePath' mapText' m' h' hreordered
  exact hsame h' fun name => filterMap_of_reordered hreordered name

/-! ## A map with more than its labels -/

/-- Two rows for one name, a constant of that name, a short row and one with a fourth word. -/
def crowdedMap : String := "f L 00000001\nf V 000000ff\nf L\nf\tL 0x2 end\n main L 0\n"

def crowdedDisk : Disk where
  text := fun path => if path = "app.map" then some crowdedMap else none
  ihexChunks := fun _ => [⟨0, 4, fun _ => 0⟩]
  firmware := fun _ => none

theorem labelRows_crowdedMap :
    labelRows crowdedMap.toList
      = [(['f'], "00000001".toList), (['f'], "0x2".toList), ("main".toList, ['0'])] := by decide

theorem exists_load_crowdedDisk :
    ∃ m, Mcu.load Isa.simavr crowdedDisk.files "app.hex" 16000000 = .ok m := by
  have hdigits : ∀ {digits : List Char}, digits ≠ [] → digits.all (isDigit 16) = true →
      HexNumber digits (valueOf 16 digits) := fun hne hall => .digits hne (List.all_eq_true.mp hall)
  have htwo : HexNumber "0x2".toList (valueOf 16 ['2']) :=
    .marked (Or.inl rfl) (List.cons_ne_nil _ _) (List.all_eq_true.mp (by decide))
  obtain ⟨symbols, hread⟩ : ∃ symbols, readMapText crowdedMap.toList = .ok symbols := by
    rw [readMapText_eq, labelRows_crowdedMap]
    refine foldlM_readRow_of_hexNumber ?_ ∅
    intro row hrow
    simp only [List.mem_cons, List.not_mem_nil, or_false] at hrow
    rcases hrow with rfl | rfl | rfl
    · exact ⟨_, hdigits (by decide) (by decide), by decide⟩
    · exact ⟨_, htwo, by decide⟩
    · exact ⟨_, hdigits (by decide) (by decide), by decide⟩
  have himage : HexImage Isa.simavr crowdedDisk.files "app.hex" Isa.atmega328p
      (Isa.resetCore fun _ => 0) symbols [⟨0, 4, fun _ => 0⟩] := {
    device := rfl
    hex := by decide
    map := hread
    read := rfl
    readable := List.cons_ne_nil _ _ }
  rw [load_of_hexImage himage]
  exact ⟨_, rfl⟩

theorem load_map_exact_crowded :
    ∃ m, Mcu.load Isa.simavr crowdedDisk.files "app.hex" 16000000 = .ok m
      ∧ (m.address "f").toNat = 4 ∧ m.has "end" = false := by
  obtain ⟨m, hload⟩ := exists_load_crowdedDisk
  have hloaded : LoadedHex Isa.simavr crowdedDisk "app.hex" crowdedMap m :=
    ⟨by decide, by decide, _, hload⟩
  obtain ⟨hexact, -⟩ := load_map_exact hloaded
  have hlast : (rowsOf "f".toList crowdedMap.toList).getLast? = some "0x2".toList := by
    rw [rowsOf_eq, labelRows_crowdedMap]
    decide
  have hnone : rowsOf "end".toList crowdedMap.toList = [] := by
    rw [rowsOf_eq, labelRows_crowdedMap]
    decide
  refine ⟨m, hload, ?_, ?_⟩
  · exact hexact.address "f" _ _ hlast
      (.marked (Or.inl rfl) (List.cons_ne_nil _ _) (List.all_eq_true.mp (by decide))) (by decide)
  · rw [Bool.eq_false_iff]
    exact fun hhas => (hexact.has "end").mp hhas hnone

end Avrsim
