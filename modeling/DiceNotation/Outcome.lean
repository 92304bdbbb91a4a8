/-
  Rolling: from a roll to the values it shows.

  `Fall` says how the dice fall: by chance, all on their highest, or all on their lowest integer.
  Only chance takes words from the source, one die after another.

  `Roll.evaluate` lets the dice fall and then changes their values in place: each step for every
  die over the whole row, then each group over its targets, all in the order in which they were
  written.  It gives an `Outcome`, which keeps the values as they fell beside the changed ones.  The
  dice have fallen before a step can fail, so a division by zero costs as many words as a success.
-/
import DiceNotation.Roll
import DiceNotation.WordSource

namespace DiceNotation

/-! ## Letting dice fall -/

/-- How each die gets its value. -/
inductive Fall where
  | chance
  | highest
  | lowest
  deriving DecidableEq

namespace Dice

/-- The values of a number of dice that fall by chance, in order. -/
def byChance (dice : Dice) : Nat → WordSource → List Binary64 × WordSource
  | 0, source => ([], source)
  | count + 1, source =>
    let (shown, source) := source.between dice.low dice.high
    let (values, source) := dice.byChance count source
    (.ofInt shown :: values, source)

/-- The values of the dice, and the source after them. -/
def fall (dice : Dice) (how : Fall) (source : WordSource) : List Binary64 × WordSource :=
  match how with
  | .chance => dice.byChance dice.count source
  | .highest => (List.replicate dice.count (.ofInt dice.high.toInt), source)
  | .lowest => (List.replicate dice.count (.ofInt dice.low.toInt), source)

end Dice

/-! ## Outcomes -/

/-- What a roll has come to. -/
structure Outcome where
  /-- The expression as it was given. -/
  source : Text
  /-- The values after every step. -/
  final : List Binary64
  /-- The values as the dice fell. -/
  fallen : List Binary64
  deriving DecidableEq

/-- The same numbers in the same order. -/
def sameNumbers : List Binary64 → List Binary64 → Bool
  | [], [] => true
  | x :: xs, y :: ys => x.sameNumber y && sameNumbers xs ys
  | _, _ => false

namespace Outcome

/-- The sum of the values after every step. -/
def sum (outcome : Outcome) : Binary64 :=
  Binary64.sum outcome.final

/-- The sum of the values as the dice fell. -/
def fallenSum (outcome : Outcome) : Binary64 :=
  Binary64.sum outcome.fallen

/-- Whether the steps made a difference.  What is not a number differs from everything. -/
def isModified (outcome : Outcome) : Bool :=
  !sameNumbers outcome.final outcome.fallen

end Outcome

namespace Roll

/-- The values after the steps for every die and then the groups. -/
def modify (roll : Roll) (values : List Binary64) : Update :=
  (Update.run Step.applyAll roll.steps values).andThen (Update.run Group.apply roll.groups)

/-- Lets the dice fall and applies every step. -/
def evaluate (roll : Roll) (how : Fall) (source : WordSource) :
    Except Fault Outcome × WordSource :=
  let (fallen, source) := roll.dice.fall how source
  ((roll.modify fallen).toExcept.map fun final => ⟨roll.source, final, fallen⟩, source)

end Roll

end DiceNotation
