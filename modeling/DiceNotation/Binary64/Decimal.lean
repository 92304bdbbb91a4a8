/-
  Decimals and binary64: reading a decimal, and the shortest decimal that reads back.

  A `Decimal` is digits times a power of ten, without a sign.

  1. `Decimal.toBinary64` rounds it once, exactly.  A power of ten is only computed where it
     matters: past 10^400 every digit string is infinite, and far enough below 10^-400 it is zero.
  2. `shortest` goes the other way.  Among the decimals that `toBinary64` takes back to the value
     it finds one with the fewest digits.  With `n` digits only two decimals come into question,
     the value's neighbours on the grid whose last place is the `n`-th digit of the value, and
     `n` runs from 1 to 17.  Of two neighbours that both read back the nearer one is taken, and of
     two equally near ones the upper.
  3. If no grid had a hit, `ofGrains` would be the answer: every count of grains HAS a finite decimal,
     because a grain is 5^1074 · 10^-1074.  So whatever `shortest` returns reads back.
-/
import DiceNotation.Binary64.Basic
import DiceNotation.Numeral

namespace DiceNotation

/-- `digits · 10^exponent`. -/
structure Decimal where
  digits : Nat
  exponent : Int
  deriving DecidableEq

namespace Decimal

open Binary64 (grainsPerOne spacing)

/-! ## From decimal to binary -/

/-- A decimal as a quotient of grains. -/
def grainQuotient (d : Decimal) : Nat × Nat :=
  match d.exponent with
  | .ofNat e => (d.digits * 10 ^ e * grainsPerOne, 1)
  | .negSucc e => (d.digits * grainsPerOne, 10 ^ (e + 1))

/-- The binary64 number nearest to a decimal under a sign. -/
def toBinary64 (negative : Bool) (d : Decimal) : Binary64 :=
  if d.digits = 0 then Binary64.zero negative
  else if 400 < d.exponent then Binary64.infinite negative
  else if d.exponent < -(d.digits.log2 + 401 : Nat) then Binary64.zero negative
  else Binary64.ofQuotient negative d.grainQuotient.1 d.grainQuotient.2

/-! ## From binary to decimal -/

/-- The decimal that is exactly a count of grains. -/
def ofGrains (grains : Nat) : Decimal :=
  ⟨grains * 5 ^ 1074, -1074⟩

/-- Whether a decimal reads back to a count of grains. -/
def readsBack (grains : Nat) (d : Decimal) : Bool :=
  match d.toBinary64 false with
  | .finite _ g _ => g == grains
  | _ => false

/-- The number of decimal digits of a number below 2^1100.  A power of two with exponent `e` has
    `e · log10 2` digits before its last one, rounded down, and 30103 in 100000 is near enough to
    that logarithm; a number up to twice as large has as many digits, or one more. -/
def length (n : Nat) : Nat :=
  let least := n.log2 * 30103 / 100000 + 1
  if n < 10 ^ least then least else least + 1

/-- The least exponent whose power of ten is above a count of grains.  It is the number of digits
    before the point, or minus the number of zeros right after it. -/
def scale (grains : Nat) : Int :=
  if grainsPerOne ≤ grains then
    length (grains / grainsPerOne)
  else
    1 - (length ((grainsPerOne - 1) / grains) : Int)

/-- The neighbours of a count of grains among the multiples of a power of ten, the nearer one
    first, and the upper one first when both are equally near.  What is farther away than the next
    count that binary64 holds cannot read back and is left out. -/
def neighbours (grains : Nat) (exponent : Int) : List Decimal :=
  let (num, den, reach) : Nat × Nat × Nat :=
    match exponent with
    | .ofNat e => (grains, grainsPerOne * 10 ^ e, spacing grains)
    | .negSucc e => (grains * 10 ^ (e + 1), grainsPerOne, spacing grains * 10 ^ (e + 1))
  let below := num % den
  let above := den - below
  let lower : List Decimal := if below ≤ reach then [⟨num / den, exponent⟩] else []
  let upper : List Decimal := if above ≤ reach then [⟨num / den + 1, exponent⟩] else []
  if below < above then lower ++ upper else upper ++ lower

/-- The decimal with the fewest digits that reads back to a positive count of grains. -/
def shortest (grains : Nat) : Decimal :=
  let top := scale grains
  let found := (List.range 17).findSome? fun n =>
    (neighbours grains (top - (n + 1 : Nat))).find? (readsBack grains)
  found.getD (ofGrains grains)

end Decimal

end DiceNotation
