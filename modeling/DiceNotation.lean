import DiceNotation.Binary64.Bits
import DiceNotation.Main
import DiceNotation.Proofs.CommandLine.Luck
import DiceNotation.Proofs.Dice.RoundTrip
import DiceNotation.Proofs.Evaluation.Bounds
import DiceNotation.Proofs.Evaluation.Chance
import DiceNotation.Proofs.Evaluation.Everyone
import DiceNotation.Proofs.Evaluation.Exact
import DiceNotation.Proofs.Evaluation.Failure
import DiceNotation.Proofs.Evaluation.Generators
import DiceNotation.Proofs.Field.Faithful
import DiceNotation.Proofs.Field.Reach
import DiceNotation.Proofs.Format.Directives
import DiceNotation.Proofs.Group.Entries
import DiceNotation.Proofs.Roll.Recurs
import DiceNotation.Proofs.Step.Offsets
