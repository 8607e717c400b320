import Avrsim.Properties.Numbers

/-!
# Leading zeros

The usage text knows two ways to write a number, decimal and 0x-prefixed. `numberOf` leaves the
base to the text, and a zero before the other digits makes it 8: the number is smaller than the one
written, and stops at the first 8 or 9.

* `Number` — a number in one of the two ways, with as many zeros before it as one likes
* `ReadsAs` — a text is taken for a number wherever one may stand on the command line
* `readsAs_text_iff` — which numbers are taken for what they are
-/

namespace Avrsim.Tool

open Infra.Strtoul

/-- A number as the usage text has it: decimal or 0x-prefixed. -/
inductive Number where
  | decimal (digits : List Char) (ne : digits ≠ [])
      (decimal : ∀ c ∈ digits, isDigit 10 c = true)
  | hex (digits : List Char) (ne : digits ≠ []) (hex : ∀ c ∈ digits, isDigit 16 c = true)

namespace Number

def text : Number → List Char
  | .decimal digits _ _ => digits
  | .hex digits _ _ => '0' :: 'x' :: digits

def value : Number → Nat
  | .decimal digits _ _ => valueOf 10 digits
  | .hex digits _ _ => valueOf 16 digits

/-- A 0x-prefixed number, a decimal one that does not begin with a zero, or one below eight. -/
def Plain : Number → Prop
  | .decimal digits _ _ => digits.head? ≠ some '0' ∨ valueOf 10 digits < 8
  | .hex _ _ _ => True

end Number

/--
A text is taken for `n` wherever a number may stand: the cycles of a run, the arguments of a call,
the ends and the byte of a region, the bit and the level of a pin, each cut to its field.
-/
structure ReadsAs (text : List Char) (n : Nat) : Prop where
  number : (numberOf text).toNat = n
  run : parseSteps ["--run", String.ofList text] = .ok (some [.freeRun (UInt64.ofNat n)])
  call : ∀ symbol, ':' ∉ symbol →
    parse (String.ofList (symbol ++ ':' :: text)) = ⟨String.ofList symbol, UInt16.ofNat n, 0⟩
  call2 : ∀ symbol, ':' ∉ symbol →
    parse (String.ofList (symbol ++ ':' :: (text ++ ':' :: text)))
      = ⟨String.ofList symbol, UInt16.ofNat n, UInt8.ofNat n⟩
  region : parseRegion (String.ofList (text ++ ':' :: (text ++ '=' :: text)))
    = .ok ⟨UInt16.ofNat n, UInt16.ofNat n, UInt8.ofNat n⟩
  pin : ∀ port, port ≠ '=' →
    parseDrive (String.ofList (port :: (text ++ '=' :: text))) = ⟨port, UInt8.ofNat n, n != 0⟩

/-! ## Where a number may stand -/

theorem parseSteps_run (operand : String) :
    parseSteps ["--run", operand] = .ok (some [.freeRun (numberOf operand.toList)]) := rfl

theorem toUInt16_word (word : UInt64) : word.toUInt16 = UInt16.ofNat word.toNat := by
  apply UInt16.toNat.inj
  rw [UInt64.toNat_toUInt16, UInt16.toNat_ofNat']

theorem toUInt8_word (word : UInt64) : word.toUInt8 = UInt8.ofNat word.toNat := by
  apply UInt8.toNat.inj
  rw [UInt64.toNat_toUInt8, UInt8.toNat_ofNat']

theorem bne_zero_eq (word : UInt64) : (word != 0) = (word.toNat != 0) := by
  rw [Bool.eq_iff_iff, bne_iff_ne, bne_iff_ne, ne_eq, ne_eq, ← UInt64.toNat_inj]
  rfl

/-- Every field takes its number from `numberOf`. -/
theorem readsAs_numberOf {text : List Char} (hcolon : ':' ∉ text) (hequals : '=' ∉ text) :
    ReadsAs text (numberOf text).toNat where
  number := rfl
  run := by
    rw [parseSteps_run, String.toList_ofList, UInt64.ofNat_toNat]
  call symbol hsymbol := by
    rw [parse_call hsymbol hcolon, toUInt16_word]
  call2 symbol hsymbol := by
    rw [parse_call2 hsymbol hcolon, toUInt16_word, toUInt8_word]
  region := by
    rw [parseRegion_regionByte hcolon hequals, if_neg (UInt16.lt_irrefl _), toUInt16_word,
      toUInt8_word]
  pin port hport := by
    rw [parseDrive_level hport hequals, toUInt8_word, bne_zero_eq]

/-- No number has a separator in it. -/
theorem not_mem_number {c : Char} (hc : digitValue c = none) (number : Number) :
    c ∉ number.text := by
  have hdigit : ∀ base, isDigit base c ≠ true := by
    intro base h
    simp [isDigit, hc] at h
  cases number with
  | decimal digits ne decimal => exact fun hmem => hdigit 10 (decimal c hmem)
  | hex digits ne hex =>
    intro hmem
    rcases List.mem_cons.mp hmem with rfl | hmem
    · exact absurd hc (by decide)
    · rcases List.mem_cons.mp hmem with rfl | hmem
      · exact absurd hc (by decide)
      · exact hdigit 16 (hex c hmem)

theorem readsAs_iff_numberOf (number : Number) (n : Nat) :
    ReadsAs number.text n ↔ (numberOf number.text).toNat = n := by
  constructor
  · exact fun h => h.number
  · rintro rfl
    exact readsAs_numberOf (not_mem_number (by decide) number) (not_mem_number (by decide) number)

/-! ## The base that is read -/

theorem toNat_toWord_of_lt {n : Nat} (h : n < 2 ^ 64) : (Conversion.ofNat n).toWord.toNat = n := by
  rw [toNat_toWord_ofNat]
  omega

theorem numberOf_decimal_iff {digits : List Char} (hne : digits ≠ [])
    (hdigits : ∀ c ∈ digits, isDigit 10 c = true) (hfits : valueOf 10 digits < 2 ^ 64) :
    (numberOf digits).toNat = valueOf 10 digits
      ↔ digits.head? ≠ some '0' ∨ valueOf 10 digits < 8 := by
  unfold numberOf
  by_cases hzero : digits.head? = some '0'
  · obtain ⟨hle, hoctal⟩ := valueOf_octal hdigits
    rw [strtoul_octal hdigits hzero, toNat_toWord_of_lt (Nat.lt_of_le_of_lt hle hfits), hoctal]
    exact ⟨Or.inr, fun h => h.resolve_left (not_not_intro hzero)⟩
  · have h := strtoul_digits hne hdigits hzero stops_nil
    rw [List.append_nil] at h
    rw [h, toNat_toWord_of_lt hfits]
    exact ⟨fun _ => Or.inl hzero, fun _ => rfl⟩

theorem numberOf_hex {digits : List Char} (hne : digits ≠ [])
    (hhex : ∀ c ∈ digits, isDigit 16 c = true) (hfits : valueOf 16 digits < 2 ^ 64) :
    (numberOf ('0' :: 'x' :: digits)).toNat = valueOf 16 digits := by
  have h := strtoul_hex (Or.inl rfl) (Or.inl rfl) hne hhex stops_nil
  rw [List.append_nil] at h
  rw [numberOf, h, toNat_toWord_of_lt hfits]

/-- **A number is taken for what it is exactly when it has no leading zero, or is below eight.** -/
theorem readsAs_text_iff (number : Number) (hfits : number.value < 2 ^ 64) :
    ReadsAs number.text number.value ↔ number.Plain := by
  rw [readsAs_iff_numberOf]
  cases number with
  | decimal digits ne decimal => exact numberOf_decimal_iff ne decimal hfits
  | hex digits ne hex => exact iff_of_true (numberOf_hex ne hex hfits) trivial

/-- Ten, and ten with a zero before it. -/
theorem readsAs_text_ten : ReadsAs ['1', '0'] 10 ∧ ¬ ReadsAs ['0', '1', '0'] 10 := by
  have hten : ∀ c ∈ ['1', '0'], isDigit 10 c = true := List.all_eq_true.mp (by decide)
  have hpadded : ∀ c ∈ ['0', '1', '0'], isDigit 10 c = true := List.all_eq_true.mp (by decide)
  constructor
  · have hfits : valueOf 10 ['1', '0'] < 2 ^ 64 := by decide
    exact (readsAs_text_iff (.decimal _ (List.cons_ne_nil _ _) hten) hfits).mpr
      (Or.inl (by decide))
  · intro h
    have hfits : valueOf 10 ['0', '1', '0'] < 2 ^ 64 := by decide
    have hplain := (readsAs_text_iff (.decimal _ (List.cons_ne_nil _ _) hpadded) hfits).mp h
    have hnot : ¬ (['0', '1', '0'].head? ≠ some '0' ∨ valueOf 10 ['0', '1', '0'] < 8) := by decide
    exact hnot hplain

/-- `--run 0100000` runs for 32768 cycles, and `--run 08` for none. -/
theorem not_readsAs_text_octal :
    numberOf "0100000".toList = 32768 ∧ numberOf "08".toList = 0
      ∧ ¬ ∀ number : Number, number.value < 2 ^ 64 → ReadsAs number.text number.value := by
  refine ⟨by decide, by decide, fun h => ?_⟩
  have hpadded : ∀ c ∈ ['0', '8'], isDigit 10 c = true := List.all_eq_true.mp (by decide)
  have hfits : valueOf 10 ['0', '8'] < 2 ^ 64 := by decide
  have hread := (h (.decimal _ (List.cons_ne_nil _ _) hpadded) hfits).number
  have hnone : (numberOf ['0', '8']).toNat ≠ valueOf 10 ['0', '8'] := by decide
  exact hnone hread

end Avrsim.Tool
