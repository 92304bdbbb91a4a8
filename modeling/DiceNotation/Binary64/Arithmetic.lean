/-
  Arithmetic on binary64 numbers.

  Each operation is the exact one, rounded once:

  1. a sum of two counts of grains is a count of grains, so `add` adds integers and rounds;
  2. a product of counts is a count of squared grains, so `mul` divides it by the grains in one;
  3. a quotient of counts is a plain number, so `div` multiplies it by the grains in one.

  What is left is the bookkeeping of signs and of the values that are no numbers.  The sign of a
  product or quotient is the product of the signs, also where it rounds to zero.  A sum that is
  exactly zero is negative only if both terms are.

  Rounding to a whole number comes in three kinds: down (`floor`), to the nearest with a half going
  away from zero (`round`), and into a byte or a 64-bit word (`toByte`, `toInt64`), where fractions
  are cut off and what does not fit stops at the end of the range.
-/
import DiceNotation.Binary64.Basic

namespace DiceNotation.Binary64

/-! ## The four operations -/

/-- The same magnitude with the other sign. -/
def neg : Binary64 → Binary64
  | nan => nan
  | infinite negative => infinite !negative
  | finite negative grains h => finite (!negative) grains h

/-- The sum. -/
def add : Binary64 → Binary64 → Binary64
  | nan, _ => nan
  | _, nan => nan
  | infinite a, infinite b => if a == b then infinite a else nan
  | infinite a, finite _ _ _ => infinite a
  | finite _ _ _, infinite b => infinite b
  | finite a m _, finite b n _ => ofSigned (a && b) (signed a m + signed b n)

/-- The difference. -/
def sub (x y : Binary64) : Binary64 :=
  add x y.neg

/-- The product. -/
def mul : Binary64 → Binary64 → Binary64
  | nan, _ => nan
  | _, nan => nan
  | infinite a, infinite b => infinite (a != b)
  | infinite a, finite b n _ => if n = 0 then nan else infinite (a != b)
  | finite a m _, infinite b => if m = 0 then nan else infinite (a != b)
  | finite a m _, finite b n _ => ofQuotient (a != b) (m * n) grainsPerOne

/-- The quotient.  Zero by zero and infinity by infinity are not numbers; all else by zero is
    infinite. -/
def div : Binary64 → Binary64 → Binary64
  | nan, _ => nan
  | _, nan => nan
  | infinite _, infinite _ => nan
  | infinite a, finite b _ _ => infinite (a != b)
  | finite a _ _, infinite b => zero (a != b)
  | finite a m _, finite b n _ =>
    if n = 0 then
      if m = 0 then nan else infinite (a != b)
    else
      ofQuotient (a != b) (m * grainsPerOne) n

instance : Neg Binary64 := ⟨neg⟩
instance : Add Binary64 := ⟨add⟩
instance : Sub Binary64 := ⟨sub⟩
instance : Mul Binary64 := ⟨mul⟩
instance : Div Binary64 := ⟨div⟩

/-- The magnitude. -/
def abs : Binary64 → Binary64
  | nan => nan
  | infinite _ => infinite false
  | finite _ grains h => finite false grains h

/-- The sum of a list, from left to right.  It starts from the negative zero, which alone leaves
    every number as it is; so it is also the sum of nothing. -/
def sum (xs : List Binary64) : Binary64 :=
  xs.foldl add (zero true)

/-! ## Whole numbers -/

/-- The integer that a value is, if it is one. -/
def toInt? : Binary64 → Option Int
  | finite negative grains _ =>
    if grains % grainsPerOne = 0 then some (signed negative (grains / grainsPerOne)) else none
  | _ => none

/-- The next whole number below or at a value. -/
def floor : Binary64 → Binary64
  | finite negative grains _ =>
    ofSigned negative (Int.fdiv (signed negative grains) grainsPerOne * grainsPerOne)
  | x => x

/-- The nearest whole number, a half going away from zero.  The sign stays, on zero too. -/
def round : Binary64 → Binary64
  | finite negative grains _ =>
    ofQuotient negative ((2 * grains + grainsPerOne) / (2 * grainsPerOne) * grainsPerOne) 1
  | x => x

/-- The whole part as a byte, no less than 0 and no more than 255; 0 for what is not a number. -/
def toByte : Binary64 → UInt8
  | nan => 0
  | infinite negative => if negative then 0 else 255
  | finite negative grains _ =>
    if negative then 0 else UInt8.ofNat (min 255 (grains / grainsPerOne))

/-- The whole part as a 64-bit integer, stopping at either end of the range; 0 for what is not a
    number. -/
def toInt64 : Binary64 → Int64
  | nan => 0
  | infinite negative => if negative then Int64.minValue else Int64.maxValue
  | finite negative grains _ =>
    Int64.ofInt (max Int64.minValue.toInt
      (min Int64.maxValue.toInt (signed negative (grains / grainsPerOne))))

end DiceNotation.Binary64
