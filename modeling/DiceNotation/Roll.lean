/-
  A roll: a whole expression, read and ready to be evaluated as often as needed.

  An expression has four parts in this order, and each ends where a sigil of a later part stands:

      dice clause | steps for every die | targeted groups | format
                  | from + - * /        | from i          | from l s > <

  The format is cut off first, then the dice clause, then the steps for every die; what is left are
  the groups.  If several parts are at fault, the format is blamed before the dice, the dice before
  the steps, and the steps before the groups.
-/
import DiceNotation.Dice
import DiceNotation.Group
import DiceNotation.Format

namespace DiceNotation

open Text

/-- An expression that has been read. -/
structure Roll where
  /-- The expression as it was given. -/
  source : Text
  dice : Dice
  /-- The steps for every die. -/
  steps : List Step
  groups : List Group
  format : Format
  deriving DecidableEq

namespace Roll

/-- The three parts in front of the format. -/
def parts (core : Text) : Text × Text × Text :=
  let rest := core.onward endsDice
  (core.upTo endsDice, rest.upTo (· == targetSigil), rest.onward (· == targetSigil))

/-- Reads a whole expression. -/
def read (s : Text) : Except Fault Roll := do
  let (core, format) ← Format.read s
  let (dice, steps, groups) := parts core
  return {
    source := s
    dice := ← Dice.read dice
    steps := ← Step.readAll steps
    groups := ← Group.readAll groups
    format }

/-- The roll as it is written plainly, whatever its source was.  Groups are joined by a `;`,
    although each starts with an `i`. -/
def text (roll : Roll) : Text :=
  roll.dice.text ++ roll.steps.flatMap Step.text ++
    List.intercalate [';'] (roll.groups.map Group.text) ++ roll.format.text

end Roll

end DiceNotation
