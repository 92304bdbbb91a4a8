/-
  What can be wrong with an expression.

  A fault is a cause, not a sentence: it names the rule that was broken and holds the piece of text
  that broke it.  `Fault.message` is the one place where causes become sentences.

  All faults but one are found while reading.  `divisionByZero` is found while evaluating, and is
  the only fault that evaluation has.
-/
import DiceNotation.Sigil
import DiceNotation.Numeral

namespace DiceNotation

/-- The most dice that one expression may roll. -/
def maxDiceCount : Nat := 10000

/-- Why an expression cannot be read or evaluated. -/
inductive Fault where
  /-- More dice than `maxDiceCount`. -/
  | tooManyDice
  /-- A count of zero dice. -/
  | noDice
  /-- A directive whose argument is not an integer, or not one that it can use. -/
  | badArgument (directive : Directive) (argument : Text)
  /-- A limit directive without a limit. -/
  | missingLimit (directive : Directive)
  | divisionByZero
  /-- Text that stands where a number belongs, and is none. -/
  | badNumber (text : Text)
  /-- Text that stands where the position of a die belongs, and is none. -/
  | badTarget (text : Text)
  deriving DecidableEq

namespace Fault

/-- The sentence that tells a fault. -/
def message : Fault → Text
  | tooManyDice =>
    "Dice count limit exceeded [max ".toList ++ Numeral.ofNat maxDiceCount ++ "]".toList
  | noDice => "Dice count must be at least 1".toList
  | badArgument directive argument =>
    "Attempted to use ".toList ++ [directive.sigil] ++ " with non-integer `".toList ++ argument ++
      "`".toList
  | missingLimit directive => ['\'', directive.sigil, '\''] ++ " needs a number to work".toList
  | divisionByZero => "Division by zero".toList
  | badNumber text => "Invalid number: `".toList ++ text ++ "`".toList
  | badTarget text => "Invalid roll index: `".toList ++ text ++ "`".toList

end Fault

end DiceNotation
