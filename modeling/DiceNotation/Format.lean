/-
  The format: how the values of a roll are shown.

  A format has a layout, a row size for the layout that has rows, and perhaps a threshold, which
  makes values stand out.  It is written at the end of an expression as a run of directives, each
  with the text up to the next one as its argument.

  1. `l` asks for the list of values, `l5` for rows of five of them; `s` asks for the sum alone,
     and does not mind an argument.
  2. `>15` marks the values from 15 up, `<3` those from 3 down; here the argument must not be
     missing.
  3. Directives are taken from left to right and a later one wins.  A row size stays when a later
     directive changes the layout, though nothing shows it then.
  4. An argument is taken without its blanks; nothing but blanks is no argument.

  Everything before the first directive is not part of the format: `Format.read` gives it back.
-/
import DiceNotation.Fault
import DiceNotation.Binary64.Basic
import DiceNotation.Text.Cut

namespace DiceNotation

open Text

/-! ## Thresholds -/

/-- Which side of its limit a threshold marks; the limit itself is always marked. -/
inductive Side where
  | upward
  | downward
  deriving DecidableEq

/-- A limit from which values stand out. -/
structure Threshold where
  limit : Int64
  side : Side
  deriving DecidableEq

namespace Threshold

/-- Whether a value stands out.  The limit is rounded to a number first. -/
def passes (threshold : Threshold) (value : Binary64) : Bool :=
  let limit := Binary64.ofInt threshold.limit.toInt
  match threshold.side with
  | .upward => limit.atMost value
  | .downward => value.atMost limit

/-- A threshold as it is written. -/
def text (threshold : Threshold) : Text :=
  let limit := Numeral.ofInt threshold.limit.toInt
  match threshold.side with
  | .upward => Directive.greater.sigil :: limit
  | .downward => Directive.less.sigil :: limit

end Threshold

/-! ## Formats -/

/-- What is shown of the values. -/
inductive Layout where
  /-- The values, and their sum if there are several. -/
  | valuesAndSum
  /-- The sum alone. -/
  | sumOnly
  /-- The values alone, in one row. -/
  | listOnly
  /-- The values alone, in rows. -/
  | rows
  deriving DecidableEq

/-- How the values of a roll are shown. -/
structure Format where
  layout : Layout
  rowSize : Nat
  threshold : Option Threshold
  deriving DecidableEq

namespace Format

/-- The row size where none is written. -/
def defaultRowSize : Nat := 20

/-- The format of an expression without directives. -/
def plain : Format :=
  ⟨.valuesAndSum, defaultRowSize, none⟩

/-- The format that shows the sum and nothing else. -/
def sumOnly : Format :=
  { plain with layout := .sumOnly }

/-! ## Writing -/

/-- A format as it is written; the plain one is nothing. -/
def text (format : Format) : Text :=
  let layout : Text :=
    match format.layout with
    | .valuesAndSum => []
    | .sumOnly => [Directive.sum.sigil]
    | .listOnly => [Directive.list.sigil]
    | .rows => Directive.list.sigil :: Numeral.ofNat format.rowSize
  let threshold : Text :=
    match format.threshold with
    | none => []
    | some threshold => threshold.text
  layout ++ threshold

/-! ## Reading -/

/-- A format with a threshold from an argument that has to be there. -/
def withThreshold (format : Format) (directive : Directive) (side : Side) (argument : Text) :
    Except Fault Format :=
  if argument = [] then
    .error (.missingLimit directive)
  else
    match Numeral.signed? argument with
    | some limit => .ok { format with threshold := some ⟨limit, side⟩ }
    | none => .error (.badArgument directive argument)

/-- A format after one more directive, its argument without blanks. -/
def withDirective (format : Format) (directive : Directive) (argument : Text) :
    Except Fault Format :=
  match directive with
  | .sum => .ok { format with layout := .sumOnly }
  | .greater => format.withThreshold directive .upward argument
  | .less => format.withThreshold directive .downward argument
  | .list =>
    if argument = [] then
      .ok { format with layout := .listOnly }
    else
      match (Numeral.signed? argument).filter (0 < ·) with
      | some size => .ok { format with layout := .rows, rowSize := size.toInt.toNat }
      | none => .error (.badArgument directive argument)

/-- The text before the first directive, and the format that the directives ask for. -/
def read (s : Text) : Except Fault (Text × Format) := do
  let (core, directives) := s.cut Directive.ofSigil?
  let format ← directives.foldlM
    (fun (format : Format) (directive, argument) =>
      format.withDirective directive (Text.trim argument))
    plain
  return (core, format)

end Format

end DiceNotation
