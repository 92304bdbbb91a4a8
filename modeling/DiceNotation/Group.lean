/-
  Modifiers: steps for every die, and steps for chosen dice.

  The steps for every die are a plain list, read by `Step.readAll`: the text is cut at the
  operators, and each piece is scanned on its own with the operator in front of it (the first piece
  with a plus).  An operator with nothing after it asks for nothing.

  A `Group` has steps for the dice at its targets, positions counted from one.  Its targets are a
  set: an ascending list without repetition.  Groups are written `i1,3:+20` and are cut from each
  other at every `;` and `i`; blank pieces between two cuts are no groups.

  1. With a `:` in the piece, the targets stand before the first one and the steps after it.
  2. Without one, the targets end where the first operator stands, and may end in a single comma.
  3. Each target is a positive number of at most 64 bits, with leading zeros and gaps allowed.
  4. Here an operator with nothing after it is refused.
  5. The targets of a group are looked at before its steps, and a group before the next one.
-/
import DiceNotation.Update
import DiceNotation.Text.Cut

namespace DiceNotation

open Text

/-! ## Steps for every die -/

namespace Step

/-- The steps of a text, cut at its operators first. -/
def readAll (s : Text) : Except Fault (List Step) := do
  let (leading, pieces) := s.cut Operator.ofSigil?
  let steps ← ((Operator.add, leading) :: pieces).mapM fun (operator, piece) =>
    scan .ignored operator piece
  return steps.flatten

end Step

/-! ## Steps for chosen dice -/

/-- Steps for the dice at some positions. -/
structure Group where
  targets : List Nat
  steps : List Step
  deriving DecidableEq

namespace Group

/-- Puts a position into an ascending list, unless it is there. -/
def insertTarget (t : Nat) : List Nat → List Nat
  | [] => [t]
  | u :: us =>
    if t < u then t :: u :: us
    else if t = u then u :: us
    else u :: insertTarget t us

/-- The positions of a list as a set: ascending, each once. -/
def targetSet (ts : List Nat) : List Nat :=
  ts.foldr insertTarget []

/-- Applies the steps in order, each to the values at the targets. -/
def apply (group : Group) (values : List Binary64) : Update :=
  Update.run (fun step => step.applyAt (group.targets.contains ·) 1) group.steps values

/-! ## Writing -/

/-- A group as it is written, with a `:` between targets and steps. -/
def text (group : Group) : Text :=
  [targetSigil] ++ List.intercalate [','] (group.targets.map Numeral.ofNat) ++ [':'] ++
    group.steps.flatMap Step.text

/-! ## Reading -/

/-- The position that an entry of a target list means. -/
def target? (entry : Text) : Option Nat :=
  (Numeral.digits? entry.trimGap).filter fun t => 0 < t && t < 2 ^ 64

/-- The targets of a list with commas. -/
def readTargets (s : Text) : Except Fault (List Nat) := do
  let targets ← (s.split (· == ',')).mapM fun entry =>
    match target? entry with
    | some t => .ok t
    | none => .error (.badTarget entry.trim)
  return targetSet targets

/-- The text without its last character, if that is a comma. -/
def dropClosingComma (s : Text) : Text :=
  if s.getLast? = some ',' then s.dropLast else s

/-- A piece cut into its target list and its steps. -/
def parts (piece : Text) : Text × Text :=
  match piece.onward (· == ':') with
  | _ :: steps => (piece.upTo (· == ':'), steps)
  | [] =>
    (dropClosingComma (Text.trimEnd (piece.upTo Operator.isSigil)),
      piece.onward Operator.isSigil)

/-- The group that a piece writes. -/
def read (piece : Text) : Except Fault Group := do
  let (targets, steps) := parts piece
  let targets ← readTargets targets
  let steps ← Step.scan .refused .add steps
  return ⟨targets, steps⟩

/-- The groups of a text. -/
def readAll (s : Text) : Except Fault (List Group) :=
  ((s.split isGroupDelimiter).filter fun piece => !piece.isAllBlank).mapM read

end Group

end DiceNotation
