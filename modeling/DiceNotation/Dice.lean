/-
  The dice clause: how many dice, and between which bounds.

  `3d6` is three dice from 1 to 6, `2d5:10` two from 5 to 10, `4d` four from 1 to 100.  A clause
  without any `d` is one die from 1 to 100, whatever it says.

  1. The count is what stands before the first `d`.  If that is not a run of digits, leading zeros
     and gaps around it allowed, it counts as 1.
  2. The bounds are what stands after the first `d`: nothing, an upper bound, or two bounds around
     a `:`, each a plain 64-bit integer, with gaps around them.
  3. Too large a count is found before the bounds are looked at, a count of zero only after.

  `Dice.ofBounds` puts the bounds in order, so `low ≤ high` in whatever was made or read.
-/
import DiceNotation.Fault
import DiceNotation.Text.Cut

namespace DiceNotation

open Text

/-- A number of like dice, each of which shows an integer from `low` to `high`. -/
structure Dice where
  count : Nat
  low : Int64
  high : Int64
  deriving DecidableEq

namespace Dice

/-- The lower bound where none is written. -/
def defaultLow : Int64 := 1

/-- The upper bound where none is written. -/
def defaultHigh : Int64 := 100

/-- One die from 1 to 100. -/
def percentile : Dice :=
  ⟨1, defaultLow, defaultHigh⟩

/-- Dice with a count that is allowed, and their bounds in order. -/
def ofBounds (count : Nat) (a b : Int64) : Except Fault Dice :=
  if count = 0 then .error .noDice
  else if maxDiceCount < count then .error .tooManyDice
  else if b < a then .ok ⟨count, b, a⟩
  else .ok ⟨count, a, b⟩

/-! ## Writing -/

/-- The clause that means these dice; a lower bound of 1 is left out. -/
def text (dice : Dice) : Text :=
  let upper := Numeral.ofInt dice.high.toInt
  Numeral.ofNat dice.count ++ ['d'] ++
    if dice.low = defaultLow then upper
    else Numeral.ofInt dice.low.toInt ++ [':'] ++ upper

/-! ## Reading -/

/-- The number of dice that the text before the `d` asks for. -/
def countOf (s : Text) : Nat :=
  (Numeral.digits? s.trimGap).getD 1

/-- The bounds that the text after the `d` asks for. -/
def bounds? (s : Text) : Option (Int64 × Int64) :=
  let s := s.trimGap
  if s = [] then
    some (defaultLow, defaultHigh)
  else
    match s.onward (· == ':') with
    | [] => (Numeral.signed? s).map fun high => (defaultLow, high)
    | _ :: right => do
      let low ← Numeral.signed? (Text.trimGap (s.upTo (· == ':')))
      let high ← Numeral.signed? (Text.trimGap right)
      return (low, high)

/-- The dice that a clause means. -/
def read (clause : Text) : Except Fault Dice :=
  match clause.onward (· == 'd') with
  | [] => .ok percentile
  | _ :: range =>
    let count := countOf (clause.upTo (· == 'd'))
    if maxDiceCount < count then
      .error .tooManyDice
    else
      match bounds? range with
      | none => .error (.badNumber (Text.trim range))
      | some (a, b) => ofBounds count a b

end Dice

end DiceNotation
