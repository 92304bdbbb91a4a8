/-
  Steps: an operator with its operand, and how a run of them is read.

  A step is applied to a value and can fail in one way only, by dividing by zero of either sign.

  `Step.scan` reads a run of steps in ONE pass over the characters.  It holds the operator that is
  open and the characters seen since; each further operator closes what is open and opens anew, and
  so does the end of the text.  What is closed is looked at without its blanks:

  1. a text that is an operand becomes a step;
  2. nothing at all is passed over, or refused, as `Dangling` says.  Even where it is refused, it
     may stand before the first operator, because no operator asked for it;
  3. anything else is refused, and the fault quotes it.

  An `i` ends the scan, whatever follows.
-/
import DiceNotation.Fault
import DiceNotation.Binary64.Arithmetic
import DiceNotation.Binary64.Plain

namespace DiceNotation

open Text

/-! ## Operands -/

/-- A finite number, and nothing around it. -/
def operand? (s : Text) : Option Binary64 :=
  (Binary64.ofText? s).filter Binary64.isFinite

/-! ## Operators at work -/

/-- The value after the operator, with the value on the left. -/
def Operator.apply (o : Operator) (value operand : Binary64) : Except Fault Binary64 :=
  match o with
  | add => .ok (value + operand)
  | subtract => .ok (value - operand)
  | multiply => .ok (value * operand)
  | divide => if operand.isZero then .error .divisionByZero else .ok (value / operand)

/-! ## Steps -/

/-- An operator with its operand. -/
structure Step where
  operator : Operator
  operand : Binary64
  deriving DecidableEq

namespace Step

/-- The value after the step. -/
def apply (step : Step) (value : Binary64) : Except Fault Binary64 :=
  step.operator.apply value step.operand

/-- A step as it is written. -/
def text (step : Step) : Text :=
  step.operator.sigil :: step.operand.text

/-! ## Reading -/

/-- What becomes of an operator with nothing after it. -/
inductive Dangling where
  | ignored
  | refused
  deriving DecidableEq

/-- Closes an open operator, or the open start of the text, with the characters read since. -/
def close (rule : Dangling) (operator : Operator) (atStart : Bool) (piece : Text) :
    Except Fault (List Step) :=
  match piece.trim with
  | [] =>
    if rule = .refused ∧ !atStart then .error (.badNumber (operator.sigil :: piece)) else .ok []
  | operand =>
    match operand? operand with
    | some value => .ok [⟨operator, value⟩]
    | none => .error (.badNumber operand)

/-- The pass over the characters.  `piece` has what was read since the open operator, last
    character first. -/
def scanFrom (rule : Dangling) (operator : Operator) (atStart : Bool) (piece : Text) :
    Text → Except Fault (List Step)
  | [] => close rule operator atStart piece.reverse
  | c :: s =>
    match Operator.ofSigil? c with
    | none => scanFrom rule operator atStart (c :: piece) s
    | some next => do
      let closed ← close rule operator atStart piece.reverse
      let steps ← scanFrom rule next false [] s
      return closed ++ steps

/-- The steps of a text up to its first `i`.  What stands before the first operator is an operand
    of `leading`. -/
def scan (rule : Dangling) (leading : Operator) (s : Text) : Except Fault (List Step) :=
  scanFrom rule leading true [] (s.upTo (· == targetSigil))

end Step

end DiceNotation
