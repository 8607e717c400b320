import Mathlib.Data.List.Induction
import Mathlib.Data.List.TakeWhile
import Mathlib.Algebra.Order.Ring.Nat

/-!
# strtoul

The number reader of the C library, for an `unsigned long` of 64 bits: leading white space, a
sign, then as many digits of the base as there are. Base 0 takes the base from the text.

* `strtoul` — what is converted, if anything is
* `Numeral` — a canonical decimal or 0x-prefixed number of any size
* `strtoul_numeral` — it is read as what it says, and what follows it does not matter
* `strtoul_octal` — with a zero before them the digits of a decimal number are read in base 8
-/

namespace Infra.Strtoul

/-! ## Digits -/

/-- The value of a digit, in any base up to 36. -/
def digitValue (c : Char) : Option Nat :=
  if '0' ≤ c && c ≤ '9' then some (c.toNat - '0'.toNat)
  else if 'a' ≤ c && c ≤ 'z' then some (c.toNat - 'a'.toNat + 10)
  else if 'A' ≤ c && c ≤ 'Z' then some (c.toNat - 'A'.toNat + 10)
  else none

def isDigit (base : Nat) (c : Char) : Bool := (digitValue c).any fun d => d < base

/-- The value of a run of digits, most significant first. -/
def valueOf (base : Nat) (digits : List Char) : Nat :=
  digits.foldl (fun v c => base * v + (digitValue c).getD 0) 0

theorem valueOf_concat (base : Nat) (digits : List Char) (c : Char) :
    valueOf base (digits ++ [c]) = base * valueOf base digits + (digitValue c).getD 0 := by
  unfold valueOf
  rw [List.foldl_append]
  rfl

theorem digitValue_digitChar {d : Nat} (h : d < 16) : digitValue d.digitChar = some d := by
  have hall : ∀ e ∈ List.range 16, digitValue e.digitChar = some e := by decide
  exact hall d (List.mem_range.mpr h)

theorem isDigit_digitChar {base d : Nat} (hd : d < base) (hbase : base ≤ 16) :
    isDigit base d.digitChar = true := by
  unfold isDigit
  rw [digitValue_digitChar (by omega)]
  simpa using hd

/-- Writing a number in a base and reading it back. -/
theorem valueOf_toDigits {base : Nat} (hb : 1 < base) (hbase : base ≤ 16) (n : Nat) :
    valueOf base (Nat.toDigits base n) = n := by
  induction n using Nat.strongRecOn with
  | _ n ih =>
    rw [Nat.toDigits_eq_if hb]
    split
    · next hlt =>
      simp [valueOf, digitValue_digitChar (Nat.lt_of_lt_of_le hlt hbase)]
    · next hge =>
      have hlt : n / base < n := Nat.div_lt_self (by omega) hb
      have hmod : n % base < 16 := Nat.lt_of_lt_of_le (Nat.mod_lt n (by omega)) hbase
      rw [valueOf_concat, ih _ hlt, digitValue_digitChar hmod, Option.getD_some]
      exact Nat.div_add_mod n base

theorem isDigit_of_mem_toDigits {base : Nat} (hb : 1 < base) (hbase : base ≤ 16) {n : Nat}
    {c : Char} (hc : c ∈ Nat.toDigits base n) : isDigit base c = true := by
  induction n using Nat.strongRecOn with
  | _ n ih =>
    rw [Nat.toDigits_eq_if hb] at hc
    split at hc
    · next hlt =>
      rw [List.mem_singleton.mp hc]
      exact isDigit_digitChar hlt hbase
    · next hge =>
      rcases List.mem_append.mp hc with hc | hc
      · exact ih _ (Nat.div_lt_self (by omega) hb) hc
      · rw [List.mem_singleton.mp hc]
        exact isDigit_digitChar (Nat.mod_lt n (by omega)) hbase

/-- No number but 0 is written with a leading zero. -/
theorem head?_toDigits {base : Nat} (hb : 1 < base) (hbase : base ≤ 16) {n : Nat} (hn : 0 < n) :
    (Nat.toDigits base n).head? ≠ some '0' := by
  induction n using Nat.strongRecOn with
  | _ n ih =>
    rw [Nat.toDigits_eq_if hb]
    split
    · next hlt =>
      intro h
      have hzero : n.digitChar = '0' := by simpa using h
      have hvalue := digitValue_digitChar (Nat.lt_of_lt_of_le hlt hbase)
      rw [hzero] at hvalue
      have hn0 : 0 = n := by simpa [digitValue] using hvalue
      omega
    · next hge =>
      rw [List.head?_append, List.head?_eq_some_head Nat.toDigits_ne_nil, Option.some_or,
        ← List.head?_eq_some_head]
      exact ih _ (Nat.div_lt_self (by omega) hb) (Nat.div_pos (by omega) (by omega))

/-! ## The reader -/

/-- The white space of the C locale. -/
def isSpace (c : Char) : Bool := c == ' ' || ('\t' ≤ c && c ≤ '\r')

/-- What `strtoul` makes of a text. -/
inductive Conversion where
  /-- No digits: nothing is converted. -/
  | none
  | value (n : UInt64)
  /-- More digits than an `unsigned long` holds. -/
  | outOfRange
deriving DecidableEq, Repr

/-- What `strtoul` returns. -/
def Conversion.toWord : Conversion → UInt64
  | .none => 0
  | .value n => n
  | .outOfRange => 0xFFFFFFFFFFFFFFFF

/-- A number of any size, read. -/
def Conversion.ofNat (n : Nat) : Conversion :=
  if n < 2 ^ 64 then .value (UInt64.ofNat n) else .outOfRange

/-- `0x` with a digit after it. Without one, the `0` stands for itself. -/
def hexAhead : List Char → Bool
  | '0' :: x :: d :: _ => (x == 'x' || x == 'X') && isDigit 16 d
  | _ => false

/-- The base of a text, when the caller leaves it to the text with base 0. -/
def radixOf (base : Nat) (text : List Char) : Nat :=
  if base ≠ 0 then base
  else if hexAhead text then 16
  else if text.head? = some '0' then 8
  else 10

/-- Skip the `0x` of a base 16 number. -/
def skipHex (base : Nat) (text : List Char) : List Char :=
  if (base = 0 ∨ base = 16) ∧ hexAhead text then text.drop 2 else text

def isSign (c : Char) : Bool := c == '+' || c == '-'

/-- Skip a sign. -/
def skipSign (text : List Char) : List Char :=
  if text.head?.any isSign then text.tail else text

/-- The digits of a text that begins with its number. -/
def digitsOf (base : Nat) (text : List Char) : List Char :=
  (skipHex base text).takeWhile (isDigit (radixOf base text))

def strtoul (base : Nat) (text : List Char) : Conversion :=
  let signed := text.dropWhile isSpace
  let text := skipSign signed
  let digits := digitsOf base text
  if digits.isEmpty then .none
  else
    match Conversion.ofNat (valueOf (radixOf base text) digits) with
    | .value n => .value (if signed.head? = some '-' then -n else n)
    | conversion => conversion

/-! ## Numbers and what follows them -/

/-- A text that cannot be part of the number before it. -/
def Stops (rest : List Char) : Prop := ∀ c, rest.head? = some c → digitValue c = none

theorem stops_nil : Stops [] := by
  intro c h
  cases h

theorem stops_cons {c : Char} (h : digitValue c = none) (rest : List Char) :
    Stops (c :: rest) := by
  rintro c' h'
  cases h'
  exact h

theorem isDigit_of_stops {rest : List Char} (h : Stops rest) (base : Nat) :
    rest.takeWhile (isDigit base) = [] := by
  cases rest with
  | nil => rfl
  | cons c rest =>
    have hc := h c rfl
    rw [List.takeWhile_cons_of_neg]
    simp [isDigit, hc]

/-- A run of digits is taken whole. -/
theorem takeWhile_append_stops {base : Nat} {digits rest : List Char}
    (hdigits : ∀ c ∈ digits, isDigit base c = true) (hrest : Stops rest) :
    (digits ++ rest).takeWhile (isDigit base) = digits := by
  rw [List.takeWhile_append_of_pos hdigits, isDigit_of_stops hrest, List.append_nil]

theorem le_toNat_of_isDigit {base : Nat} {c : Char} (h : isDigit base c = true) :
    48 ≤ c.toNat := by
  by_contra hlt
  have h0 : ¬ '0' ≤ c := fun hle => hlt (Char.le_def.mp hle)
  have ha : ¬ 'a' ≤ c := fun hle => h0 (Char.le_trans (by decide) hle)
  have hA : ¬ 'A' ≤ c := fun hle => h0 (Char.le_trans (by decide) hle)
  simp [isDigit, digitValue, h0, ha, hA] at h

theorem toNat_le_of_isSpace {c : Char} (h : isSpace c = true) : c.toNat ≤ 32 := by
  simp only [isSpace, Bool.or_eq_true, beq_iff_eq, Bool.and_eq_true, decide_eq_true_eq] at h
  rcases h with rfl | ⟨-, h⟩
  · decide
  · have h13 : c.toNat ≤ 13 := Char.le_def.mp h
    omega

theorem toNat_le_of_isSign {c : Char} (h : isSign c = true) : c.toNat ≤ 45 := by
  simp only [isSign, Bool.or_eq_true, beq_iff_eq] at h
  rcases h with rfl | rfl <;> decide

/-- A text that begins with a digit has no white space and no sign to skip. -/
theorem strtoul_of_isDigit {base base' : Nat} {c : Char} {text : List Char}
    (h : isDigit base' c = true) (hdigits : digitsOf base (c :: text) ≠ []) :
    strtoul base (c :: text)
      = Conversion.ofNat (valueOf (radixOf base (c :: text)) (digitsOf base (c :: text))) := by
  have hle := le_toNat_of_isDigit h
  have hspace : ¬ isSpace c = true := fun hs => by
    have := toNat_le_of_isSpace hs
    omega
  have hsign : ¬ isSign c = true := fun hs => by
    have := toNat_le_of_isSign hs
    omega
  have hskip : skipSign (c :: text) = c :: text := by simp [skipSign, hsign]
  have hminus : ¬ (c :: text).head? = some '-' := by
    rintro ⟨⟩
    exact hsign rfl
  have hempty : (digitsOf base (c :: text)).isEmpty = false := by
    rw [List.isEmpty_eq_false_iff]
    exact hdigits
  unfold strtoul
  rw [List.dropWhile_cons_of_neg hspace]
  simp only [hskip, hempty, hminus, if_false, Bool.false_eq_true]
  cases Conversion.ofNat (valueOf (radixOf base (c :: text)) (digitsOf base (c :: text))) <;> rfl

/-! ## Written numbers -/

/-- A number as it is written: canonical decimal, or `0x` and hexadecimal digits. -/
inductive Numeral where
  | decimal (n : Nat)
  | hex (digits : List Char) (ne : digits ≠ []) (hex : ∀ c ∈ digits, isDigit 16 c = true)

namespace Numeral

/-- The number it stands for. -/
def value : Numeral → Nat
  | .decimal n => n
  | .hex digits _ _ => valueOf 16 digits

def text : Numeral → List Char
  | .decimal n => Nat.toDigits 10 n
  | .hex digits _ _ => '0' :: 'x' :: digits

end Numeral

/-- Every character of a number could be a digit of some base. -/
theorem digitValue_of_mem_text {numeral : Numeral} {c : Char} (hc : c ∈ numeral.text) :
    digitValue c ≠ none := by
  have hdigit : ∀ {base : Nat}, isDigit base c = true → digitValue c ≠ none := by
    intro base h hnone
    unfold isDigit at h
    rw [hnone] at h
    cases h
  cases numeral with
  | decimal n => exact hdigit (isDigit_of_mem_toDigits (by decide) (by decide) hc)
  | hex digits ne hex =>
    rcases List.mem_cons.mp hc with rfl | hc
    · decide
    · rcases List.mem_cons.mp hc with rfl | hc
      · decide
      · exact hdigit (hex c hc)

theorem hexAhead_zero {rest : List Char} (hrest : Stops rest) : hexAhead ('0' :: rest) = false := by
  cases hrest' : rest with
  | nil => rfl
  | cons x rest =>
    have hx := hrest x (by rw [hrest']; rfl)
    have hlower : x ≠ 'x' := by
      rintro rfl
      exact absurd hx (by decide)
    have hupper : x ≠ 'X' := by
      rintro rfl
      exact absurd hx (by decide)
    cases rest with
    | nil => rfl
    | cons d rest => simp [hexAhead, hlower, hupper]

theorem hexAhead_of_ne {c : Char} (hc : c ≠ '0') (rest : List Char) :
    hexAhead (c :: rest) = false := by
  unfold hexAhead
  split
  · next h =>
    cases h
    exact absurd rfl hc
  · rfl

theorem digitsOf_of_not_hexAhead {base : Nat} {text : List Char} (h : hexAhead text = false) :
    digitsOf base text = text.takeWhile (isDigit (radixOf base text)) := by
  simp [digitsOf, skipHex, h]

/-- Decimal digits that do not begin with a zero. -/
theorem strtoul_digits {digits : List Char} (hne : digits ≠ [])
    (hdigits : ∀ c ∈ digits, isDigit 10 c = true) (hzero : digits.head? ≠ some '0')
    {rest : List Char} (hrest : Stops rest) :
    strtoul 0 (digits ++ rest) = Conversion.ofNat (valueOf 10 digits) := by
  obtain ⟨c, cs, rfl⟩ := List.exists_cons_of_ne_nil hne
  have hc : c ≠ '0' := fun h => hzero (by rw [h, List.head?_cons])
  have hahead := hexAhead_of_ne hc (cs ++ rest)
  have hradix : radixOf 0 (c :: (cs ++ rest)) = 10 := by simp [radixOf, hahead, hc]
  have hread : digitsOf 0 (c :: (cs ++ rest)) = c :: cs := by
    rw [digitsOf_of_not_hexAhead hahead, hradix]
    exact takeWhile_append_stops hdigits hrest
  rw [List.cons_append, strtoul_of_isDigit (hdigits c List.mem_cons_self) (by simp [hread]),
    hread, hradix]

theorem strtoul_decimal (n : Nat) {rest : List Char} (hrest : Stops rest) :
    strtoul 0 (Nat.toDigits 10 n ++ rest) = Conversion.ofNat n := by
  rcases Nat.eq_zero_or_pos n with rfl | hn
  · -- a lone 0 is octal
    have hzero : isDigit 8 '0' = true := by decide
    have hahead := hexAhead_zero hrest
    have hradix : radixOf 0 ('0' :: rest) = 8 := by simp [radixOf, hahead]
    have hdigits : digitsOf 0 ('0' :: rest) = ['0'] := by
      rw [digitsOf_of_not_hexAhead hahead, hradix]
      exact takeWhile_append_stops (List.forall_mem_singleton.mpr hzero) hrest
    rw [Nat.toDigits_zero, List.singleton_append,
      strtoul_of_isDigit hzero (by simp [hdigits]), hdigits, hradix]
    rfl
  · have hdigit : ∀ d ∈ Nat.toDigits 10 n, isDigit 10 d = true :=
      fun d hd => isDigit_of_mem_toDigits (by decide) (by decide) hd
    have hhead : (Nat.toDigits 10 n).head? ≠ some '0' := head?_toDigits (by decide) (by decide) hn
    rw [strtoul_digits Nat.toDigits_ne_nil hdigit hhead hrest,
      valueOf_toDigits (by decide) (by decide)]

/-- After a `0x` the digits are of base 16, if that is the base or the base is left to the text. -/
theorem strtoul_hex {base : Nat} (hbase : base = 0 ∨ base = 16) {x : Char} (hx : x = 'x' ∨ x = 'X')
    {digits : List Char} (hne : digits ≠ []) (hhex : ∀ c ∈ digits, isDigit 16 c = true)
    {rest : List Char} (hrest : Stops rest) :
    strtoul base ('0' :: x :: (digits ++ rest)) = Conversion.ofNat (valueOf 16 digits) := by
  have hzero : isDigit 16 '0' = true := by decide
  have hahead : hexAhead ('0' :: x :: (digits ++ rest)) = true := by
    cases digits with
    | nil => exact absurd rfl hne
    | cons d ds => simpa [hexAhead, hx] using hhex d List.mem_cons_self
  have hradix : radixOf base ('0' :: x :: (digits ++ rest)) = 16 := by
    rcases hbase with rfl | rfl
    · simp [radixOf, hahead]
    · rfl
  have hdigits : digitsOf base ('0' :: x :: (digits ++ rest)) = digits := by
    unfold digitsOf skipHex
    rw [if_pos ⟨hbase, hahead⟩, hradix]
    exact takeWhile_append_stops hhex hrest
  rw [strtoul_of_isDigit hzero (by simpa [hdigits] using hne), hdigits, hradix]

/-- There is no `x` among digits. -/
theorem hexAhead_of_isDigit {digits : List Char} (hhex : ∀ c ∈ digits, isDigit 16 c = true) :
    hexAhead digits = false := by
  have hx : ∀ x, (x == 'x' || x == 'X') = true → isDigit 16 x = false := by
    intro x h
    rw [Bool.or_eq_true, beq_iff_eq, beq_iff_eq] at h
    rcases h with rfl | rfl <;> decide
  unfold hexAhead
  split
  · next x d rest =>
    have hdigit : isDigit 16 x = true := hhex x (by simp)
    cases hletter : (x == 'x' || x == 'X') with
    | false => rfl
    | true =>
      rw [hx x hletter] at hdigit
      cases hdigit
  · rfl

/-- In base 16 the digits may stand without a `0x`. -/
theorem strtoul_hexDigits {digits : List Char} (hne : digits ≠ [])
    (hhex : ∀ c ∈ digits, isDigit 16 c = true) :
    strtoul 16 digits = Conversion.ofNat (valueOf 16 digits) := by
  have hradix : radixOf 16 digits = 16 := rfl
  have hdigits : digitsOf 16 digits = digits := by
    rw [digitsOf_of_not_hexAhead (hexAhead_of_isDigit hhex), hradix]
    exact List.takeWhile_eq_self_iff.mpr hhex
  obtain ⟨c, cs, rfl⟩ := List.exists_cons_of_ne_nil hne
  rw [strtoul_of_isDigit (hhex c List.mem_cons_self) (by simp [hdigits]), hdigits, hradix]

/-- **A number is read as what is written**, whatever follows it. -/
theorem strtoul_numeral (numeral : Numeral) {rest : List Char} (hrest : Stops rest) :
    strtoul 0 (numeral.text ++ rest) = Conversion.ofNat numeral.value := by
  cases numeral with
  | decimal n => exact strtoul_decimal n hrest
  | hex digits ne hex => exact strtoul_hex (Or.inl rfl) (Or.inl rfl) ne hex hrest

/-! ## A leading zero -/

/-- Digits of a smaller base are digits of a larger one. -/
theorem isDigit_mono {base base' : Nat} (hbase : base ≤ base') {c : Char}
    (h : isDigit base c = true) : isDigit base' c = true := by
  unfold isDigit at h ⊢
  cases hvalue : digitValue c with
  | none =>
    rw [hvalue] at h
    cases h
  | some d =>
    rw [hvalue] at h
    have hlt : d < base := by simpa using h
    simpa using Nat.lt_of_lt_of_le hlt hbase

theorem getD_digitValue_lt {base : Nat} {c : Char} (h : isDigit base c = true) :
    (digitValue c).getD 0 < base := by
  unfold isDigit at h
  cases hvalue : digitValue c with
  | none =>
    rw [hvalue] at h
    cases h
  | some d =>
    rw [hvalue] at h
    simpa using h

theorem le_getD_digitValue {base base' : Nat} {c : Char} (h : isDigit base' c = true)
    (hnot : ¬ isDigit base c = true) : base ≤ (digitValue c).getD 0 := by
  unfold isDigit at h hnot
  cases hvalue : digitValue c with
  | none =>
    rw [hvalue] at h
    cases h
  | some d =>
    rw [hvalue] at hnot
    simpa using hnot

theorem valueOf_le_append {base : Nat} (hbase : 0 < base) (digits rest : List Char) :
    valueOf base digits ≤ valueOf base (digits ++ rest) := by
  induction rest using List.reverseRecOn with
  | nil => rw [List.append_nil]
  | append_singleton rest c ih =>
    rw [← List.append_assoc, valueOf_concat]
    have hmul := Nat.le_mul_of_pos_left (valueOf base (digits ++ rest)) hbase
    omega

/-- Digits are worth more in a larger base, a single digit apart. -/
theorem valueOf_base {base base' : Nat} (hpos : 0 < base) (hbase : base < base')
    {digits : List Char} (hdigits : ∀ c ∈ digits, isDigit base c = true) :
    valueOf base digits ≤ valueOf base' digits
      ∧ (valueOf base digits = valueOf base' digits ↔ valueOf base' digits < base) := by
  induction digits using List.reverseRecOn with
  | nil => exact ⟨Nat.le_refl 0, fun _ => hpos, fun _ => rfl⟩
  | append_singleton digits c ih =>
    have hc := getD_digitValue_lt (hdigits c (by simp))
    obtain ⟨hle, -⟩ := ih fun d hd => hdigits d (by simp [hd])
    rw [valueOf_concat, valueOf_concat]
    rcases Nat.eq_zero_or_pos (valueOf base' digits) with hzero | hone
    · -- zeros before the last digit
      have hzero' : valueOf base digits = 0 := by omega
      rw [hzero, hzero', Nat.mul_zero, Nat.mul_zero]
      exact ⟨Nat.le_refl _, fun _ => by omega, fun _ => rfl⟩
    · have hmul : base * valueOf base digits ≤ base * valueOf base' digits :=
        Nat.mul_le_mul_left base hle
      have hlt : base * valueOf base' digits < base' * valueOf base' digits :=
        Nat.mul_lt_mul_of_pos_right hbase hone
      have hge : base' ≤ base' * valueOf base' digits := Nat.le_mul_of_pos_right base' hone
      omega

/-- What base 8 makes of decimal digits: the digits up to the first 8 or 9. -/
theorem valueOf_octal {digits : List Char} (hdigits : ∀ c ∈ digits, isDigit 10 c = true) :
    valueOf 8 (digits.takeWhile (isDigit 8)) ≤ valueOf 10 digits
      ∧ (valueOf 8 (digits.takeWhile (isDigit 8)) = valueOf 10 digits
        ↔ valueOf 10 digits < 8) := by
  have hoctal : ∀ c ∈ digits.takeWhile (isDigit 8), isDigit 8 c = true :=
    fun c hc => List.mem_takeWhile_imp hc
  obtain ⟨hle, hiff⟩ := valueOf_base (by decide) (by decide : 8 < 10) hoctal
  cases hrest : digits.dropWhile (isDigit 8) with
  | nil =>
    have hall : digits.takeWhile (isDigit 8) = digits := by
      rw [List.takeWhile_eq_self_iff]
      exact List.dropWhile_eq_nil_iff.mp hrest
    rw [hall] at hle hiff ⊢
    exact ⟨hle, hiff⟩
  | cons c rest =>
    -- an 8 or a 9, which base 8 does not read
    have hnot : ¬ isDigit 8 c = true := by
      have hhead := List.head?_dropWhile_not (isDigit 8) digits
      rw [hrest] at hhead
      simpa using hhead
    have hsplit : digits.takeWhile (isDigit 8) ++ [c] ++ rest = digits := by
      rw [List.append_assoc, List.singleton_append, ← hrest]
      exact List.takeWhile_append_dropWhile
    have hc : isDigit 10 c = true := hdigits c (by rw [← hsplit]; simp)
    have hdigit := le_getD_digitValue hc hnot
    have hmono := valueOf_le_append (by decide : 0 < 10) (digits.takeWhile (isDigit 8) ++ [c]) rest
    rw [hsplit, valueOf_concat] at hmono
    omega

/-- Decimal digits after a zero are read in base 8. -/
theorem strtoul_octal {digits : List Char} (hdigits : ∀ c ∈ digits, isDigit 10 c = true)
    (hzero : digits.head? = some '0') :
    strtoul 0 digits = Conversion.ofNat (valueOf 8 (digits.takeWhile (isDigit 8))) := by
  obtain ⟨cs, rfl⟩ := List.head?_eq_some_iff.mp hzero
  have hahead : hexAhead ('0' :: cs) = false :=
    hexAhead_of_isDigit fun c hc => isDigit_mono (by decide) (hdigits c hc)
  have hradix : radixOf 0 ('0' :: cs) = 8 := by simp [radixOf, hahead]
  have hoctal : digitsOf 0 ('0' :: cs) = ('0' :: cs).takeWhile (isDigit 8) := by
    rw [digitsOf_of_not_hexAhead hahead, hradix]
  have htaken : ('0' :: cs).takeWhile (isDigit 8) = '0' :: cs.takeWhile (isDigit 8) :=
    List.takeWhile_cons_of_pos (by decide)
  have hne : digitsOf 0 ('0' :: cs) ≠ [] := by
    rw [hoctal, htaken]
    exact List.cons_ne_nil _ _
  rw [strtoul_of_isDigit (hdigits '0' List.mem_cons_self) hne, hradix, hoctal]

/-- What `strtoul` returns for a number: the number, or the largest there is. -/
theorem toNat_toWord_ofNat (n : Nat) : (Conversion.ofNat n).toWord.toNat = min n (2 ^ 64 - 1) := by
  unfold Conversion.ofNat
  split
  · next h =>
    have hmin : min n (2 ^ 64 - 1) = n := by omega
    rw [hmin]
    exact UInt64.toNat_ofNat_of_lt' h
  · next h =>
    have hmin : min n (2 ^ 64 - 1) = 2 ^ 64 - 1 := by omega
    rw [hmin]
    rfl

end Infra.Strtoul
