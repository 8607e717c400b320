import Avrsim.Properties.Numbers
import Mathlib.Data.List.Forall2

/-!
# The command line

What the argument loop of `run` makes of steps that are written as the usage text has them. An
option takes the word after it, whatever that looks like, and every other word is a call.

* `Step.Writes` — the ways to write a step
* `Step.Writable` — the steps there is a way to write
* `parseSteps_of_writes` — steps that are written are read
-/

namespace Avrsim.Tool

open Infra.Strtoul

/-- The words that are options. -/
def optionWords : List String :=
  ["--drive", "--watch", "--run", "--trace", "--until", "--stack", "--paint"]

/--
The arguments that write a step. A number is written in canonical decimal or with a `0x` before it,
and is that of the field it is for.
-/
inductive Step.Writes : Step → List String → Prop
  | call {symbol : String} (colon : ':' ∉ symbol.toList) (word : symbol ∉ optionWords) :
    Writes (.callSymbol ⟨symbol, 0, 0⟩) [symbol]
  | call1 {symbol : String} {wordArgument : UInt16} {arg1 : Numeral}
      (colon : ':' ∉ symbol.toList) (word : symbol ∉ optionWords)
      (value1 : arg1.value = wordArgument.toNat) :
    Writes (.callSymbol ⟨symbol, wordArgument, 0⟩)
      [String.ofList (symbol.toList ++ ':' :: arg1.text)]
  | call2 {symbol : String} {wordArgument : UInt16} {byteArgument : UInt8} {arg1 arg2 : Numeral}
      (colon : ':' ∉ symbol.toList) (word : symbol ∉ optionWords)
      (value1 : arg1.value = wordArgument.toNat) (value2 : arg2.value = byteArgument.toNat) :
    Writes (.callSymbol ⟨symbol, wordArgument, byteArgument⟩)
      [String.ofList (symbol.toList ++ ':' :: (arg1.text ++ ':' :: arg2.text))]
  | drive {port : Char} {bit : UInt8} {level : Bool} {number high : Numeral}
      (equals : port ≠ '=') (value : number.value = bit.toNat)
      (held : high.value = level.toNat) :
    Writes (.drivePin ⟨port, bit, level⟩)
      ["--drive", String.ofList (port :: (number.text ++ '=' :: high.text))]
  | watch {port : Char} {bit : UInt8} {number : Numeral}
      (equals : port ≠ '=') (value : number.value = bit.toNat) :
    Writes (.watchPin ⟨port, bit, false⟩) ["--watch", String.ofList (port :: number.text)]
  | run {cycles : UInt64} {number : Numeral} (value : number.value = cycles.toNat) :
    Writes (.freeRun cycles) ["--run", String.ofList number.text]
  | traceSymbol (symbol : String) : Writes (.traceSymbol symbol) ["--trace", symbol]
  | runUntil (symbol : String) : Writes (.runUntil symbol) ["--until", symbol]
  | stack {low high : UInt16} {first last : Numeral} (le : low ≤ high)
      (valueLow : first.value = low.toNat) (valueHigh : last.value = high.toNat) :
    Writes (.watchStack ⟨low, high, 0⟩)
      ["--stack", String.ofList (first.text ++ ':' :: last.text)]
  | paint {low high : UInt16} {byte : UInt8} {first last fill : Numeral} (le : low ≤ high)
      (valueLow : first.value = low.toNat) (valueHigh : last.value = high.toNat)
      (valueByte : fill.value = byte.toNat) :
    Writes (.paintRegion ⟨low, high, byte⟩)
      ["--paint", String.ofList (first.text ++ ':' :: (last.text ++ '=' :: fill.text))]

/-- A step with what the usage text can say of it. -/
def Step.Writable : Step → Prop
  | .callSymbol call => ':' ∉ call.symbol.toList ∧ call.symbol ∉ optionWords
  | .drivePin drive => drive.port ≠ '='
  | .watchPin drive => drive.port ≠ '=' ∧ drive.level = false
  | .freeRun _ | .traceSymbol _ | .runUntil _ => True
  | .watchStack region => region.low ≤ region.high ∧ region.value = 0
  | .paintRegion region => region.low ≤ region.high

/-- Decimal does for every step. -/
theorem exists_writes_iff (step : Step) : (∃ words, step.Writes words) ↔ step.Writable := by
  constructor
  · rintro ⟨words, hwrites⟩
    cases hwrites with
    | call colon word => exact ⟨colon, word⟩
    | call1 colon word => exact ⟨colon, word⟩
    | call2 colon word => exact ⟨colon, word⟩
    | drive equals => exact equals
    | watch equals => exact ⟨equals, rfl⟩
    | run => trivial
    | traceSymbol => trivial
    | runUntil => trivial
    | stack le => exact ⟨le, rfl⟩
    | paint le => exact le
  · intro hwritable
    have hdecimal : ∀ n, (Numeral.decimal n).value = n := fun _ => rfl
    cases step with
    | callSymbol call => exact ⟨_, .call2 hwritable.1 hwritable.2 (hdecimal _) (hdecimal _)⟩
    | drivePin drive => exact ⟨_, .drive hwritable (hdecimal _) (hdecimal _)⟩
    | freeRun cycles => exact ⟨_, .run (hdecimal _)⟩
    | watchPin drive =>
      obtain ⟨port, bit, level⟩ := drive
      obtain ⟨hport, rfl⟩ := hwritable
      exact ⟨_, .watch hport (hdecimal _)⟩
    | traceSymbol symbol => exact ⟨_, .traceSymbol symbol⟩
    | runUntil symbol => exact ⟨_, .runUntil symbol⟩
    | watchStack region =>
      obtain ⟨low, high, value⟩ := region
      obtain ⟨hle, rfl⟩ := hwritable
      exact ⟨_, .stack hle (hdecimal _) (hdecimal _)⟩
    | paintRegion region => exact ⟨_, .paint hwritable (hdecimal _) (hdecimal _) (hdecimal _)⟩

/-! ## Fields -/

theorem numberOf_eq {numeral : Numeral} {n : UInt64} (h : numeral.value = n.toNat) :
    numberOf numeral.text = n := by
  have hlt := n.toNat_lt
  rw [← UInt64.toNat_inj, toNat_numberOf_text, h]
  omega

theorem word_eq {numeral : Numeral} {word : UInt16} (h : numeral.value = word.toNat) :
    (numberOf numeral.text).toUInt16 = word := by
  rw [← UInt16.toNat_inj, toNat_word, h]
  exact (narrow_eq_iff (by decide)).mpr word.toNat_lt

theorem byte_eq {numeral : Numeral} {byte : UInt8} (h : numeral.value = byte.toNat) :
    (numberOf numeral.text).toUInt8 = byte := by
  rw [← UInt8.toNat_inj, toNat_byte_text, h]
  exact (narrow_eq_iff (by decide)).mpr byte.toNat_lt

theorem level_eq {numeral : Numeral} {level : Bool} (h : numeral.value = level.toNat) :
    (numberOf numeral.text != 0) = level := by
  cases level with
  | false =>
    have hzero : numberOf numeral.text = 0 := numberOf_eq h
    rw [hzero]
    rfl
  | true =>
    have hone : numberOf numeral.text = 1 := numberOf_eq h
    rw [hone]
    rfl

/-! ## Words -/

theorem withOperand_eq_none {word : String} (h : word ∉ optionWords) :
    withOperand word = none := by
  unfold withOperand
  split <;> simp_all [optionWords]

/-- No option has a colon in it. -/
theorem withOperand_colon {word : String} (h : ':' ∈ word.toList) : withOperand word = none := by
  have hcolon : ∀ option ∈ optionWords, ':' ∉ option.toList := by decide
  exact withOperand_eq_none fun hmem => hcolon word hmem h

theorem parseSteps_call {word : String} (hword : withOperand word = none) {rest : List String}
    {steps : List Step} (hrest : parseSteps rest = .ok (some steps)) :
    parseSteps (word :: rest) = .ok (some (.callSymbol (parse word) :: steps)) := by
  unfold parseSteps
  simp only [hword, hrest]
  rfl

/-- An option takes the word after it. -/
theorem parseSteps_option {word operand : String} {make : String → Except String Step} {step : Step}
    (hword : withOperand word = some make) (hmake : make operand = .ok step) {rest : List String}
    {steps : List Step} (hrest : parseSteps rest = .ok (some steps)) :
    parseSteps (word :: operand :: rest) = .ok (some (step :: steps)) := by
  unfold parseSteps
  simp only [hword, hmake, hrest]
  rfl

/-- What is written for a step is read as that step, and what follows it is left for the others. -/
theorem parseSteps_writes {step : Step} {words : List String} (hwrites : step.Writes words)
    {rest : List String} {steps : List Step} (hrest : parseSteps rest = .ok (some steps)) :
    parseSteps (words ++ rest) = .ok (some (step :: steps)) := by
  have hcolon (numeral : Numeral) : ':' ∉ numeral.text := not_mem_text (by decide) numeral
  have hequals (numeral : Numeral) : '=' ∉ numeral.text := not_mem_text (by decide) numeral
  cases hwrites with
  | @call symbol colon word =>
    have hparse := parse_symbol colon
    rw [String.ofList_toList] at hparse
    rw [← hparse]
    exact parseSteps_call (withOperand_eq_none word) hrest
  | @call1 symbol wordArgument arg1 colon word value1 =>
    have hparse := parse_call colon (hcolon arg1)
    rw [String.ofList_toList, word_eq value1] at hparse
    rw [← hparse]
    exact parseSteps_call (withOperand_colon (by simp)) hrest
  | @call2 symbol wordArgument byteArgument arg1 arg2 colon word value1 value2 =>
    have hparse := parse_call2 colon (hcolon arg1) arg2.text
    rw [String.ofList_toList, word_eq value1, byte_eq value2] at hparse
    rw [← hparse]
    exact parseSteps_call (withOperand_colon (by simp)) hrest
  | @drive port bit level number high equals value held =>
    have hdrive := parseDrive_level equals (hequals number) high.text
    rw [byte_eq value, level_eq held] at hdrive
    rw [← hdrive]
    exact parseSteps_option rfl rfl hrest
  | @watch port bit number equals value =>
    have hdrive := parseDrive_pin equals (hequals number)
    rw [byte_eq value] at hdrive
    rw [← hdrive]
    exact parseSteps_option rfl rfl hrest
  | @run cycles number value =>
    have hcycles : numberOf (String.ofList number.text).toList = cycles := by
      rw [String.toList_ofList, numberOf_eq value]
    rw [← hcycles]
    exact parseSteps_option rfl rfl hrest
  | traceSymbol symbol => exact parseSteps_option rfl rfl hrest
  | runUntil symbol => exact parseSteps_option rfl rfl hrest
  | @stack low high first last le valueLow valueHigh =>
    have hregion := parseRegion_region (hcolon first) (hequals last)
    rw [word_eq valueLow, word_eq valueHigh, if_neg (UInt16.not_lt.mpr le)] at hregion
    exact parseSteps_option rfl (by rw [hregion]; rfl) hrest
  | @paint low high byte first last fill le valueLow valueHigh valueByte =>
    have hregion := parseRegion_regionByte (hcolon first) (hequals last) fill.text
    rw [word_eq valueLow, word_eq valueHigh, byte_eq valueByte,
      if_neg (UInt16.not_lt.mpr le)] at hregion
    exact parseSteps_option rfl (by rw [hregion]; rfl) hrest

theorem parseSteps_flatten {steps : List Step} {words : List (List String)}
    (hwrites : List.Forall₂ Step.Writes steps words) :
    parseSteps words.flatten = .ok (some steps) := by
  induction hwrites with
  | nil => rfl
  | cons hstep _ ih =>
    rw [List.flatten_cons]
    exact parseSteps_writes hstep ih

/-- A step is written with one word or two. -/
theorem length_pos_of_writes {step : Step} {words : List String} (hwrites : step.Writes words) :
    0 < words.length := by
  cases hwrites <;> exact Nat.succ_pos _

/--
**Steps that are written are read.** There are arguments enough for the tool to go on, and the loop
makes the same steps of them, in the same order.
-/
theorem parseSteps_of_writes {steps : List Step} {words : List (List String)} (hne : steps ≠ [])
    (hwrites : List.Forall₂ Step.Writes steps words) (program image : String) :
    minimumArguments ≤ (program :: image :: words.flatten).length
      ∧ parseSteps ((program :: image :: words.flatten).drop firstStepArgument)
        = .ok (some steps) := by
  refine ⟨?_, parseSteps_flatten hwrites⟩
  cases hwrites with
  | nil => exact absurd rfl hne
  | cons hstep _ =>
    have hpos := length_pos_of_writes hstep
    simp only [minimumArguments, List.flatten_cons, List.length_cons, List.length_append]
    omega

/-- A call, a press, a trace of a symbol that looks like an option, and a painted range. -/
theorem parseSteps_of_writes_usage :
    minimumArguments ≤ 9 ∧
      parseSteps (["avrsim", "app.elf", "task_init:0x0500:18", "--drive", "B5=0", "--trace",
          "--run", "--paint", "0x500:0x057F=197"].drop firstStepArgument)
        = .ok (some [.callSymbol ⟨"task_init", 0x0500, 18⟩, .drivePin ⟨'B', 5, false⟩,
          .traceSymbol "--run", .paintRegion ⟨0x0500, 0x057F, 0xC5⟩]) := by
  have hex500 : ∀ c ∈ ['5', '0', '0'], isDigit 16 c = true := List.all_eq_true.mp (by decide)
  have hex0500 : ∀ c ∈ ['0', '5', '0', '0'], isDigit 16 c = true := List.all_eq_true.mp (by decide)
  have hex057F : ∀ c ∈ ['0', '5', '7', 'F'], isDigit 16 c = true := List.all_eq_true.mp (by decide)
  have hcall : Step.Writes (.callSymbol ⟨"task_init", 0x0500, 18⟩) ["task_init:0x0500:18"] :=
    @Step.Writes.call2 _ _ _ (.hex _ (List.cons_ne_nil _ _) hex0500) (.decimal 18) (by decide)
      (by decide) rfl rfl
  have hdrive : Step.Writes (.drivePin ⟨'B', 5, false⟩) ["--drive", "B5=0"] :=
    @Step.Writes.drive _ _ _ (.decimal 5) (.decimal 0) (by decide) rfl rfl
  have hpaint : Step.Writes (.paintRegion ⟨0x0500, 0x057F, 0xC5⟩) ["--paint", "0x500:0x057F=197"] :=
    @Step.Writes.paint _ _ _ (.hex _ (List.cons_ne_nil _ _) hex500)
      (.hex _ (List.cons_ne_nil _ _) hex057F) (.decimal 197) (by decide) rfl rfl rfl
  exact parseSteps_of_writes (List.cons_ne_nil _ _)
    (.cons hcall (.cons hdrive (.cons (.traceSymbol "--run") (.cons hpaint .nil)))) "avrsim"
    "app.elf"

end Avrsim.Tool
