/-
  The report on a number of expressions.

  All expressions are read and rolled before anything is shown, one after another from the same
  source of words; the first that fails ends the whole report, and is named in the failure.

  The report starts with a header: the expressions, and the colour of the mean of their positions.
  The expressions stand in it as they were given, so it is one line unless one of them has a line
  end.  A block for each expression follows, which is its fields, after a notice if they show the
  sum only because something else was too long.
-/
import DiceNotation.Envelope
import DiceNotation.Colour
import DiceNotation.Field

namespace DiceNotation.CommandLine

open Text

/-! ## Failures -/

/-- At which stage an expression failed. -/
inductive Stage where
  | reading
  | rolling
  deriving DecidableEq

/-- An expression that failed, and why. -/
structure Failure where
  stage : Stage
  expression : Text
  fault : Fault
  deriving DecidableEq

namespace Failure

/-- What was being done when the expression failed. -/
def context (failure : Failure) : Text :=
  let act :=
    match failure.stage with
    | .reading => "could not parse `".toList
    | .rolling => "could not roll `".toList
  act ++ failure.expression ++ ['`']

/-- The failure from the outside in: what was being done, and what went wrong. -/
def chain (failure : Failure) : List Text :=
  [failure.context, failure.fault.message]

end Failure

/-! ## Rolling -/

/-- An expression that has been rolled. -/
structure Rolled where
  roll : Roll
  envelope : Envelope
  deriving DecidableEq

/-- Reads an expression and rolls it. -/
def rollOne (expression : Text) (source : WordSource) : Except Failure Rolled × WordSource :=
  match Roll.read expression with
  | .error fault => (.error ⟨.reading, expression, fault⟩, source)
  | .ok roll =>
    match roll.envelope source with
    | (.error fault, source) => (.error ⟨.rolling, expression, fault⟩, source)
    | (.ok envelope, source) => (.ok ⟨roll, envelope⟩, source)

/-- Reads and rolls expressions in order, up to the first that fails. -/
def rollEach : List Text → WordSource → Except Failure (List Rolled) × WordSource
  | [], source => (.ok [], source)
  | expression :: rest, source =>
    match rollOne expression source with
    | (.error failure, source) => (.error failure, source)
    | (.ok rolled, source) =>
      let (others, source) := rollEach rest source
      (others.map (rolled :: ·), source)

/-! ## Showing -/

/-- A field with an empty line after it. -/
def fieldBlock (field : Field) : Text :=
  field.title ++ ['\n'] ++ field.body ++ ['\n', '\n']

/-- The block of one expression. -/
def Rolled.block (rolled : Rolled) (limit : Nat) : Text :=
  let fitted := rolled.envelope.chance.fieldsWithin rolled.roll.format limit
  let notice :=
    if fitted.fellBack then
      rolled.roll.source ++
        " - Your result was too long, so the format changed to sum only.\n".toList
    else
      []
  notice ++ fitted.fields.flatMap fieldBlock

/-- The colour of some rolled expressions; that of full luck for none. -/
def colourOf (rolls : List Rolled) : Colour :=
  Colour.ofPosition ((Colour.mean? (rolls.map (·.envelope.position))).getD 1)

/-- The header of a report, which is one line unless an expression has a line end in it. -/
def header (expressions : List Text) (rolls : List Rolled) : Text :=
  "--- ".toList ++ List.intercalate [' '] expressions ++ " --- ".toList ++ (colourOf rolls).text ++ ['\n']

/-- The whole report on some expressions, with bodies up to a limit. -/
def report (expressions : List Text) (limit : Nat) (source : WordSource) :
    Except Failure Text × WordSource :=
  let (rolls, source) := rollEach expressions source
  (rolls.map fun rolls => header expressions rolls ++ rolls.flatMap (·.block limit), source)

end DiceNotation.CommandLine
