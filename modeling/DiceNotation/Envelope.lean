/-
  The envelope of a roll: what it came to, between the least and the most it could come to.

  All three outcomes are of the same roll.  The one by chance is taken first, and is the only one
  that takes words.  `position` is where a sum lies between two others, from 0 to 1; if the two are
  the same number, every sum between them counts as 1.
-/
import DiceNotation.Outcome

namespace DiceNotation

/-- Where a value lies between two others: 0 at or below the lower, 1 at or above the upper. -/
def position (low high value : Binary64) : Binary64 :=
  if value.below low then 0
  else if high.below value then 1
  else if high.sameNumber low then 1
  else (value - low) / (high - low)

/-- Three outcomes of one roll. -/
structure Envelope where
  chance : Outcome
  lowest : Outcome
  highest : Outcome
  deriving DecidableEq

namespace Envelope

/-- Where the sum by chance lies between the other two. -/
def position (envelope : Envelope) : Binary64 :=
  DiceNotation.position envelope.lowest.sum envelope.highest.sum envelope.chance.sum

end Envelope

namespace Roll

/-- Evaluates a roll by chance, at its lowest and at its highest; the first fault ends it. -/
def envelope (roll : Roll) (source : WordSource) : Except Fault Envelope × WordSource :=
  let (chance, source) := roll.evaluate .chance source
  match chance with
  | .error fault => (.error fault, source)
  | .ok chance =>
    let (lowest, source) := roll.evaluate .lowest source
    match lowest with
    | .error fault => (.error fault, source)
    | .ok lowest =>
      let (highest, source) := roll.evaluate .highest source
      (highest.map fun highest => ⟨chance, lowest, highest⟩, source)

end Roll

end DiceNotation
