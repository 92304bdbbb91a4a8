/-
  Showing an outcome: numbers, bodies and fields.

  1. A number within a billionth of an integer is shown as that integer (`settle`); so are the zeros
     and all that rounding has left over.  Everything else is shown with the fewest digits that
     read back.
  2. A value that passes the threshold stands between two pairs of asterisks.  It is the settled
     value that is compared, so what stands out agrees with what is shown.  Sums never stand out.
  3. A body has the values, the sum, or both, as the layout of the format says; a single value needs
     no sum.
  4. An outcome has a field for the values after every step, and a second one for the values as the
     dice fell if that makes a difference.
  5. If a body does not fit a limit, all fields show the sum instead (`Outcome.fieldsWithin`).

  `Outcome.text` is the framed form for a console, with rows of 20 values.
-/
import DiceNotation.Outcome

namespace DiceNotation

open Text

/-! ## Numbers -/

/-- How near to an integer a number counts as that integer: a billionth. -/
def tolerance : Binary64 :=
  Decimal.toBinary64 false ⟨1, -9⟩

/-- The nearest integer, if it is near enough, and else the value itself. -/
def settle (value : Binary64) : Binary64 :=
  if (value - value.round).abs.below tolerance then value.round else value

/-- A number as it is shown.  Integers of 64 bits are written as such, without the sign of zero. -/
def numberText (value : Binary64) : Text :=
  match (settle value).toInt? with
  | some i => if i.natAbs < 2 ^ 63 then Numeral.ofInt i else value.text
  | none => value.text

/-- The sum of some values as it is shown. -/
def sumText (values : List Binary64) : Text :=
  numberText (Binary64.sum values)

/-! ## Bodies -/

/-- A value as it is shown under a threshold. -/
def valueText (threshold : Option Threshold) (value : Binary64) : Text :=
  let shown := numberText (settle value)
  match threshold with
  | some threshold =>
    if threshold.passes (settle value) then ['*', '*'] ++ shown ++ ['*', '*'] else shown
  | none => shown

/-- Texts in one row. -/
def rowText (texts : List Text) : Text :=
  List.intercalate [',', ' '] texts

/-- Some values in a format. -/
def Format.body (format : Format) (values : List Binary64) : Text :=
  let shown := values.map (valueText format.threshold)
  match format.layout with
  | .valuesAndSum =>
    if 1 < values.length then
      rowText shown ++ " (sum: ".toList ++ sumText values ++ [')']
    else
      rowText shown
  | .listOnly => rowText shown
  | .sumOnly => sumText values
  | .rows => List.intercalate ['\n'] ((rows format.rowSize shown).map rowText)

/-! ## Fields -/

/-- A body under a title. -/
structure Field where
  title : Text
  body : Text
  deriving DecidableEq

/-- Whether the body has no more characters than a limit. -/
def Field.fits (field : Field) (limit : Nat) : Bool :=
  field.body.length ≤ limit

/-- The limit where none is given. -/
def defaultFieldLimit : Nat := 1024

/-- Fields, and whether they show the sum because something else was too long. -/
structure FittedFields where
  fields : List Field
  fellBack : Bool
  deriving DecidableEq

namespace Outcome

/-- The fields of an outcome in a format. -/
def fields (outcome : Outcome) (format : Format) : List Field :=
  let start := "You rolled a ".toList ++ outcome.source
  let final : Field := ⟨start ++ " and got...".toList, format.body outcome.final⟩
  let fallen : Field :=
    ⟨start ++ " and without modifiers got...".toList, format.body outcome.fallen⟩
  if outcome.isModified then [final, fallen] else [final]

/-- The fields of an outcome in a format, or with the sum alone if a body is longer than a limit. -/
def fieldsWithin (outcome : Outcome) (format : Format) (limit : Nat) : FittedFields :=
  let fields := outcome.fields format
  if fields.all (·.fits limit) then ⟨fields, false⟩
  else ⟨outcome.fields .sumOnly, true⟩

/-- How many values stand in a row of the framed form. -/
def frameRowSize : Nat := 20

/-- The framed form of an outcome. -/
def text (outcome : Outcome) : Text :=
  let values := (rows frameRowSize (outcome.final.map numberText)).map rowText
  "┏━━━━ ".toList ++ outcome.source ++ " ━━━━\n┃ ".toList ++
    List.intercalate "\n┃ ".toList values ++ "\n┃ sum: ".toList ++ sumText outcome.final

end Outcome

/-! ## All in one -/

/-- Reads an expression, rolls it by chance and shows it in its own format. -/
def rollFields (expression : Text) (source : WordSource) :
    Except Fault (List Field) × WordSource :=
  match Roll.read expression with
  | .error fault => (.error fault, source)
  | .ok roll =>
    let (outcome, source) := roll.evaluate .chance source
    (outcome.map (·.fields roll.format), source)

end DiceNotation
