/-
  Binary64 numbers: the values that dice, operands and sums have.

  A `Binary64` is not a number, one of two infinities, or a sign with a representable count of
  grains (2^-1074 each).  The sign is kept beside the magnitude, so the two zeros are two values;
  all that is not a number is one value, since nothing here ever shows a payload.

  1. `ofQuotient` and `ofSigned` are the only ways in which an exact result becomes a number.  Each
     operation of the library computes exactly, in naturals or integers, and rounds once.
  2. `rank?` places the values on one line of integers, the infinities at the two ends.  It forgets
     the sign of zero and gives no place to what is not a number, and the three comparisons
     (`below`, `atMost`, `sameNumber`) are comparisons of ranks.
-/
import DiceNotation.Binary64.Rounding

namespace DiceNotation

/-- A value in the binary64 format. -/
inductive Binary64 where
  | nan
  | infinite (negative : Bool)
  | finite (negative : Bool) (grains : Nat) (representable : Binary64.Representable grains)
  deriving DecidableEq

namespace Binary64

/-! ## From exact results -/

/-- Zero with a sign. -/
def zero (negative : Bool) : Binary64 :=
  finite negative 0 representable_zero

/-- A sign and a quotient of grains, rounded to nearest; infinite past the limit. -/
def ofQuotient (negative : Bool) (num den : Nat) : Binary64 :=
  if h : nearestGrains num den < grainLimit then
    finite negative (nearestGrains num den) ⟨h, nearestGrains_spaced num den⟩
  else
    infinite negative

/-- A signed count of grains, rounded to nearest.  The sign of zero has to be told. -/
def ofSigned (zeroNegative : Bool) (grains : Int) : Binary64 :=
  ofQuotient (if grains = 0 then zeroNegative else decide (grains < 0)) grains.natAbs 1

/-- An integer, rounded to nearest. -/
def ofInt (i : Int) : Binary64 :=
  ofSigned false (i * grainsPerOne)

instance (n : Nat) : OfNat Binary64 n := ⟨ofInt n⟩

/-! ## Parts and kinds -/

/-- A magnitude with a sign. -/
def signed (negative : Bool) (grains : Nat) : Int :=
  if negative then -(grains : Int) else grains

/-- The sign, as it is written: not a number has none. -/
def isNegative : Binary64 → Bool
  | nan => false
  | infinite negative => negative
  | finite negative _ _ => negative

/-- Neither infinite nor not a number. -/
def isFinite : Binary64 → Bool
  | finite _ _ _ => true
  | _ => false

/-- One of the two zeros. -/
def isZero : Binary64 → Bool
  | finite _ grains _ => grains == 0
  | _ => false

/-! ## Order -/

/-- The place of a value on the line of integers, in grains; the infinities lie just outside the
    finite numbers. -/
def rank? : Binary64 → Option Int
  | nan => none
  | infinite negative => some (signed negative grainLimit)
  | finite negative grains _ => some (signed negative grains)

/-- Two places compare as asked; no comparison holds of what has no place. -/
def compareBy (p : Int → Int → Bool) (x y : Binary64) : Bool :=
  match x.rank?, y.rank? with
  | some a, some b => p a b
  | _, _ => false

/-- Less than. -/
def below (x y : Binary64) : Bool :=
  compareBy (fun a b => a < b) x y

/-- Less than or the same number. -/
def atMost (x y : Binary64) : Bool :=
  compareBy (fun a b => a ≤ b) x y

/-- The same number: the two zeros are, and what is not a number is the same as nothing, itself
    included. -/
def sameNumber (x y : Binary64) : Bool :=
  compareBy (fun a b => a == b) x y

end Binary64

end DiceNotation
