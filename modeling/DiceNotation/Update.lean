/-
  Changing values in place.

  A run of steps changes a row of values one by one, and a step that fails ends the run.  What was
  changed before the failure STAYS changed; so the outcome of a run is a pair: the values as they
  are now, and the fault, if there was one.  `Update` is that pair.

  1. `Update.andThen` goes on with another change unless the first one failed.
  2. `Update.run` makes a list of changes in order, up to the first that fails.
  3. `Update.toExcept` forgets the values of a failed run.

  Two sweeps are built on it.  `Step.applyAll` changes every value; `Step.applyAt` changes those
  whose position, counted from one, is chosen.
-/
import DiceNotation.Step

namespace DiceNotation

/-- Values after a change, and the fault that stopped it. -/
structure Update where
  values : List Binary64
  fault : Option Fault
  deriving DecidableEq

namespace Update

/-- A change that went through. -/
def done (values : List Binary64) : Update :=
  ⟨values, none⟩

/-- One value in front of a change of the rest. -/
def cons (value : Binary64) (rest : Update) : Update :=
  ⟨value :: rest.values, rest.fault⟩

/-- A change, and then another one if the first went through. -/
def andThen (u : Update) (change : List Binary64 → Update) : Update :=
  match u.fault with
  | none => change u.values
  | some _ => u

/-- The changes in order, up to the first that fails. -/
def run {α : Type} (change : α → List Binary64 → Update) : List α → List Binary64 → Update
  | [], values => done values
  | a :: as, values => (change a values).andThen (run change as)

/-- The values, if nothing failed. -/
def toExcept (u : Update) : Except Fault (List Binary64) :=
  match u.fault with
  | none => .ok u.values
  | some fault => .error fault

end Update

namespace Step

/-- Applies a step to every value, from the first on. -/
def applyAll (step : Step) : List Binary64 → Update
  | [] => .done []
  | value :: rest =>
    match step.apply value with
    | .ok changed => (applyAll step rest).cons changed
    | .error fault => ⟨value :: rest, some fault⟩

/-- Applies a step to the values at the chosen positions; the first value is at `position`. -/
def applyAt (step : Step) (chosen : Nat → Bool) (position : Nat) : List Binary64 → Update
  | [] => .done []
  | value :: rest =>
    if chosen position then
      match step.apply value with
      | .ok changed => (applyAt step chosen (position + 1) rest).cons changed
      | .error fault => ⟨value :: rest, some fault⟩
    else
      (applyAt step chosen (position + 1) rest).cons value

end Step

end DiceNotation
