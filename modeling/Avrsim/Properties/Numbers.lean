import Avrsim.Tool

/-!
# Numbers on the command line

A number is read as an `unsigned long` and then cut down to the field it is for, without a check:
a number of any size is accepted, and the order of a region is tested on what is left of its ends.

* `Written` — a spec as it is written, with canonical decimal or 0x-prefixed numbers
* `Faithful` — the tool rejects it, or reads the numbers that are written
* `faithful_iff` — which specs are read faithfully
-/

namespace Avrsim.Tool

open Infra.Strtoul

/-! ## Cutting a spec -/

theorem cut_append {c : Char} {text : List Char} (h : c ∉ text) (rest : List Char) :
    cut c (text ++ c :: rest) = (text, some rest) := by
  have hne : ∀ ch ∈ text, (ch != c) = true := by
    intro ch hch
    rw [bne_iff_ne]
    rintro rfl
    exact h hch
  unfold cut
  rw [List.takeWhile_append_of_pos hne, List.dropWhile_append_of_pos hne]
  simp

theorem cut_eq_self {c : Char} {text : List Char} (h : c ∉ text) : cut c text = (text, none) := by
  have hne : ∀ ch ∈ text, (ch != c) = true := by
    intro ch hch
    rw [bne_iff_ne]
    rintro rfl
    exact h hch
  unfold cut
  rw [List.takeWhile_eq_self_iff.mpr hne, List.dropWhile_eq_nil_iff.mpr hne]
  rfl

theorem not_mem_text {c : Char} (hc : digitValue c = none) (numeral : Numeral) :
    c ∉ numeral.text := fun h => digitValue_of_mem_text h hc

/-! ## Numbers and fields -/

/-- What is left of a number in a field of `width` bits. -/
def narrow (width n : Nat) : Nat := min n (2 ^ 64 - 1) % 2 ^ width

theorem toNat_numberOf (numeral : Numeral) {rest : List Char} (hrest : Stops rest) :
    (numberOf (numeral.text ++ rest)).toNat = min numeral.value (2 ^ 64 - 1) := by
  unfold numberOf
  rw [strtoul_numeral numeral hrest, toNat_toWord_ofNat]

theorem toNat_numberOf_text (numeral : Numeral) :
    (numberOf numeral.text).toNat = min numeral.value (2 ^ 64 - 1) := by
  have h := toNat_numberOf numeral stops_nil
  rwa [List.append_nil] at h

theorem toNat_word (numeral : Numeral) :
    (numberOf numeral.text).toUInt16.toNat = narrow 16 numeral.value := by
  rw [UInt64.toNat_toUInt16, toNat_numberOf_text]
  rfl

theorem toNat_byte (numeral : Numeral) {rest : List Char} (hrest : Stops rest) :
    (numberOf (numeral.text ++ rest)).toUInt8.toNat = narrow 8 numeral.value := by
  rw [UInt64.toNat_toUInt8, toNat_numberOf numeral hrest]
  rfl

theorem toNat_byte_text (numeral : Numeral) :
    (numberOf numeral.text).toUInt8.toNat = narrow 8 numeral.value := by
  have h := toNat_byte numeral stops_nil
  rwa [List.append_nil] at h

/-- A number survives in a field exactly when it fits. -/
theorem narrow_eq_iff {width n : Nat} (hwidth : width ≤ 32) : narrow width n = n ↔ n < 2 ^ width := by
  have hpow : 2 ^ width ≤ 2 ^ 32 := Nat.pow_le_pow_right (by decide) hwidth
  have hpos : 0 < 2 ^ width := Nat.two_pow_pos width
  constructor
  · intro h
    rw [← h]
    exact Nat.mod_lt _ hpos
  · intro h
    have hmin : min n (2 ^ 64 - 1) = n := by omega
    rw [narrow, hmin, Nat.mod_eq_of_lt h]

/-! ## Specs -/

/-- A spec as it is written. -/
inductive Written where
  | call (symbol : List Char) (colon : ':' ∉ symbol) (arg1 : Numeral)
  | call2 (symbol : List Char) (colon : ':' ∉ symbol) (arg1 arg2 : Numeral)
  | region (low high : Numeral)
  | regionByte (low high byte : Numeral)
  | pin (port : Char) (bit : Numeral)
  | pinLevel (port : Char) (bit level : Numeral)

namespace Written

def text : Written → String
  | .call symbol _ arg1 => String.ofList (symbol ++ ':' :: arg1.text)
  | .call2 symbol _ arg1 arg2 => String.ofList (symbol ++ ':' :: (arg1.text ++ ':' :: arg2.text))
  | .region low high => String.ofList (low.text ++ ':' :: high.text)
  | .regionByte low high byte =>
    String.ofList (low.text ++ ':' :: (high.text ++ '=' :: byte.text))
  | .pin port bit => String.ofList (port :: bit.text)
  | .pinLevel port bit level => String.ofList (port :: (bit.text ++ '=' :: level.text))

/-- A region is accepted exactly when it is in order, and has the ends and byte that are written. -/
def RegionFaithful (result : Except String Region) (low high : Nat) (byte : Option Nat) : Prop :=
  ((∃ region, result = .ok region) ↔ low ≤ high)
    ∧ ∀ region, result = .ok region →
      region.low.toNat = low ∧ region.high.toNat = high ∧ ∀ b ∈ byte, region.value.toNat = b

/-- The tool rejects a spec or reads the numbers as they are written. -/
def Faithful (spec : Written) : Prop :=
  match spec with
  | .call _ _ arg1 => (parse spec.text).wordArgument.toNat = arg1.value
  | .call2 _ _ arg1 arg2 =>
    (parse spec.text).wordArgument.toNat = arg1.value
      ∧ (parse spec.text).byteArgument.toNat = arg2.value
  | .region low high => RegionFaithful (parseRegion spec.text) low.value high.value none
  | .regionByte low high byte =>
    RegionFaithful (parseRegion spec.text) low.value high.value (some byte.value)
  | .pin _ bit | .pinLevel _ bit _ => (parseDrive spec.text).bit.toNat = bit.value

/--
The ends of a region that is in order fit in 16 bits and its byte in eight; one that is backwards
still is when its ends have been cut down to 16 bits.
-/
def RegionFits (low high : Nat) (byte : Option Nat) : Prop :=
  if low ≤ high then high < 2 ^ 16 ∧ ∀ b ∈ byte, b < 2 ^ 8 else narrow 16 high < narrow 16 low

/-- Every number fits in its field. -/
def Fits : Written → Prop
  | .call _ _ arg1 => arg1.value < 2 ^ 16
  | .call2 _ _ arg1 arg2 => arg1.value < 2 ^ 16 ∧ arg2.value < 2 ^ 8
  | .region low high => RegionFits low.value high.value none
  | .regionByte low high byte => RegionFits low.value high.value (some byte.value)
  | .pin _ bit | .pinLevel _ bit _ => bit.value < 2 ^ 8

end Written

/-! ## Calls and pins -/

theorem parse_symbol {symbol : List Char} (hcolon : ':' ∉ symbol) :
    parse (String.ofList symbol) = ⟨String.ofList symbol, 0, 0⟩ := by
  unfold parse
  rw [String.toList_ofList, cut_eq_self hcolon]

theorem parse_call {symbol arg1 : List Char} (hcolon : ':' ∉ symbol) (harg1 : ':' ∉ arg1) :
    parse (String.ofList (symbol ++ ':' :: arg1))
      = ⟨String.ofList symbol, (numberOf arg1).toUInt16, 0⟩ := by
  unfold parse
  rw [String.toList_ofList, cut_append hcolon]
  simp only [cut_eq_self harg1]

theorem parse_call2 {symbol arg1 : List Char} (hcolon : ':' ∉ symbol) (harg1 : ':' ∉ arg1)
    (arg2 : List Char) :
    parse (String.ofList (symbol ++ ':' :: (arg1 ++ ':' :: arg2)))
      = ⟨String.ofList symbol, (numberOf arg1).toUInt16, (numberOf arg2).toUInt8⟩ := by
  unfold parse
  rw [String.toList_ofList, cut_append hcolon]
  simp only [cut_append harg1]

theorem parseDrive_pin {port : Char} (hport : port ≠ '=') {bit : List Char} (hbit : '=' ∉ bit) :
    parseDrive (String.ofList (port :: bit)) = ⟨port, (numberOf bit).toUInt8, false⟩ := by
  unfold parseDrive
  rw [String.toList_ofList]
  simp only [cut_eq_self hbit, if_neg hport]
  rfl

theorem parseDrive_level {port : Char} (hport : port ≠ '=') {bit : List Char} (hbit : '=' ∉ bit)
    (level : List Char) :
    parseDrive (String.ofList (port :: (bit ++ '=' :: level)))
      = ⟨port, (numberOf bit).toUInt8, numberOf level != 0⟩ := by
  unfold parseDrive
  rw [String.toList_ofList]
  simp only [cut_append hbit, if_neg hport]
  rfl

/-- The bit of a pin, an equals sign for a port included. -/
theorem bit_parseDrive (port : Char) (bit : Numeral) :
    (parseDrive (String.ofList (port :: bit.text))).bit.toNat = narrow 8 bit.value := by
  have hbit : '=' ∉ bit.text := not_mem_text (by decide) bit
  by_cases hport : port = '='
  · unfold parseDrive
    rw [String.toList_ofList]
    simp only [if_pos hport]
    exact toNat_byte_text bit
  · rw [parseDrive_pin hport hbit]
    exact toNat_byte_text bit

theorem bit_parseDrive_level (port : Char) (bit level : Numeral) :
    (parseDrive (String.ofList (port :: (bit.text ++ '=' :: level.text)))).bit.toNat
      = narrow 8 bit.value := by
  have hbit : '=' ∉ bit.text := not_mem_text (by decide) bit
  by_cases hport : port = '='
  · unfold parseDrive
    rw [String.toList_ofList]
    simp only [if_pos hport]
    -- the digits go on past the equals sign, where the number ends
    exact toNat_byte bit (stops_cons (by decide) level.text)
  · rw [parseDrive_level hport hbit]
    exact toNat_byte_text bit

/-! ## Regions -/

theorem parseRegion_region {low high : List Char} (hlow : ':' ∉ low) (hhigh : '=' ∉ high) :
    parseRegion (String.ofList (low ++ ':' :: high))
      = if (numberOf high).toUInt16 < (numberOf low).toUInt16 then
          .error "the range runs backwards"
        else .ok ⟨(numberOf low).toUInt16, (numberOf high).toUInt16, 0⟩ := by
  unfold parseRegion
  rw [String.toList_ofList, cut_append hlow]
  simp only [cut_eq_self hhigh]
  rfl

theorem parseRegion_regionByte {low high : List Char} (hlow : ':' ∉ low) (hhigh : '=' ∉ high)
    (byte : List Char) :
    parseRegion (String.ofList (low ++ ':' :: (high ++ '=' :: byte)))
      = if (numberOf high).toUInt16 < (numberOf low).toUInt16 then
          .error "the range runs backwards"
        else .ok ⟨(numberOf low).toUInt16, (numberOf high).toUInt16, (numberOf byte).toUInt8⟩ := by
  unfold parseRegion
  rw [String.toList_ofList, cut_append hlow]
  simp only [cut_append hhigh]
  rfl

theorem regionFaithful_error {message : String} {low high : Nat} {byte : Option Nat} :
    Written.RegionFaithful (.error message) low high byte ↔ ¬ low ≤ high := by
  constructor
  · rintro ⟨haccepted, -⟩ hle
    obtain ⟨region, hregion⟩ := haccepted.mpr hle
    cases hregion
  · intro hnot
    refine ⟨⟨?_, fun hle => absurd hle hnot⟩, ?_⟩
    · rintro ⟨region, hregion⟩
      cases hregion
    · intro region hregion
      cases hregion

theorem regionFaithful_ok {region : Region} {low high : Nat} {byte : Option Nat} :
    Written.RegionFaithful (.ok region) low high byte
      ↔ low ≤ high ∧ region.low.toNat = low ∧ region.high.toNat = high
        ∧ ∀ b ∈ byte, region.value.toNat = b := by
  constructor
  · rintro ⟨haccepted, hfields⟩
    exact ⟨haccepted.mp ⟨region, rfl⟩, hfields region rfl⟩
  · rintro ⟨hle, hfields⟩
    refine ⟨⟨fun _ => hle, fun _ => ⟨region, rfl⟩⟩, ?_⟩
    rintro _ ⟨⟩
    exact hfields

/-- A region is read faithfully exactly when it fits. -/
theorem regionFaithful_iff {low high : Nat} {wordLow wordHigh : UInt16} {value : UInt8}
    {byte : Option Nat} (hlow : wordLow.toNat = narrow 16 low)
    (hhigh : wordHigh.toNat = narrow 16 high) (hbyte : ∀ b ∈ byte, value.toNat = narrow 8 b)
    (message : String) :
    Written.RegionFaithful
        (if wordHigh < wordLow then .error message else .ok ⟨wordLow, wordHigh, value⟩) low high byte
      ↔ Written.RegionFits low high byte := by
  have hlt : wordHigh < wordLow ↔ narrow 16 high < narrow 16 low := by
    rw [UInt16.lt_iff_toNat_lt, hlow, hhigh]
  have hlowFits : narrow 16 low = low ↔ low < 2 ^ 16 := narrow_eq_iff (by decide)
  have hhighFits : narrow 16 high = high ↔ high < 2 ^ 16 := narrow_eq_iff (by decide)
  have hbyteFits : ∀ b, narrow 8 b = b ↔ b < 2 ^ 8 := fun b => narrow_eq_iff (by decide)
  unfold Written.RegionFits
  by_cases hback : narrow 16 high < narrow 16 low
  · rw [if_pos (hlt.mpr hback), regionFaithful_error]
    constructor
    · intro hnot
      rw [if_neg hnot]
      exact hback
    · intro hfits hle
      -- the ends keep their order when they fit
      rw [if_pos hle] at hfits
      rw [hhighFits.mpr hfits.1, hlowFits.mpr (Nat.lt_of_le_of_lt hle hfits.1)] at hback
      omega
  · rw [if_neg (mt hlt.mp hback), regionFaithful_ok]
    constructor
    · rintro ⟨hle, -, hh, hb⟩
      rw [if_pos hle]
      refine ⟨hhighFits.mp (hhigh.symm.trans hh), fun b hmem => ?_⟩
      exact (hbyteFits b).mp ((hbyte b hmem).symm.trans (hb b hmem))
    · intro hfits
      have hle : low ≤ high := by
        by_contra hnot
        rw [if_neg hnot] at hfits
        exact hback hfits
      rw [if_pos hle] at hfits
      refine ⟨hle, ?_, ?_, fun b hmem => ?_⟩
      · exact hlow.trans (hlowFits.mpr (Nat.lt_of_le_of_lt hle hfits.1))
      · exact hhigh.trans (hhighFits.mpr hfits.1)
      · exact (hbyte b hmem).trans ((hbyteFits b).mpr (hfits.2 b hmem))

/-- **A spec is read faithfully exactly when every number in it fits in its field.** -/
theorem faithful_iff (spec : Written) : spec.Faithful ↔ spec.Fits := by
  have hcolon (numeral : Numeral) : ':' ∉ numeral.text := not_mem_text (by decide) numeral
  have hequals (numeral : Numeral) : '=' ∉ numeral.text := not_mem_text (by decide) numeral
  cases spec with
  | call symbol hsymbol arg1 =>
    show (parse _).wordArgument.toNat = arg1.value ↔ arg1.value < 2 ^ 16
    rw [Written.text, parse_call hsymbol (hcolon arg1), toNat_word, narrow_eq_iff (by decide)]
  | call2 symbol hsymbol arg1 arg2 =>
    show (parse _).wordArgument.toNat = arg1.value ∧ (parse _).byteArgument.toNat = arg2.value
      ↔ arg1.value < 2 ^ 16 ∧ arg2.value < 2 ^ 8
    rw [Written.text, parse_call2 hsymbol (hcolon arg1), toNat_word, toNat_byte_text,
      narrow_eq_iff (by decide), narrow_eq_iff (by decide)]
  | region low high =>
    show Written.RegionFaithful (parseRegion _) low.value high.value none ↔ _
    rw [Written.text, parseRegion_region (hcolon low) (hequals high)]
    exact regionFaithful_iff (toNat_word low) (toNat_word high) (fun b hb => by cases hb) _
  | regionByte low high byte =>
    show Written.RegionFaithful (parseRegion _) low.value high.value (some byte.value) ↔ _
    rw [Written.text, parseRegion_regionByte (hcolon low) (hequals high)]
    refine regionFaithful_iff (toNat_word low) (toNat_word high) ?_ _
    rintro b ⟨⟩
    exact toNat_byte_text byte
  | pin port bit =>
    show (parseDrive _).bit.toNat = bit.value ↔ bit.value < 2 ^ 8
    rw [Written.text, bit_parseDrive, narrow_eq_iff (by decide)]
  | pinLevel port bit level =>
    show (parseDrive _).bit.toNat = bit.value ↔ bit.value < 2 ^ 8
    rw [Written.text, bit_parseDrive_level, narrow_eq_iff (by decide)]

/-- The example of the usage text, `task_init:0x0500:0x1234`: r22 gets 0x34. -/
theorem not_faithful_usage :
    (parse "task_init:0x0500:0x1234").byteArgument = 0x34
      ∧ ¬ (Written.call2 "task_init".toList (by decide)
        (.hex "0500".toList (by decide) (List.all_eq_true.mp (by decide)))
        (.hex "1234".toList (by decide) (List.all_eq_true.mp (by decide)))).Faithful := by
  refine ⟨by decide, ?_⟩
  rintro ⟨-, hbyte⟩
  exact absurd hbyte (by decide)

end Avrsim.Tool
