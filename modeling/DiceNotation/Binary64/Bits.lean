/-
  The interchange form of binary64: one sign bit, eleven bits of exponent, 52 bits of fraction.

  In grains the form is short.  An exponent field of 0 means that the fraction IS the count of
  grains; a field `e` of 1 to 2046 means `(2^52 + fraction) · 2^(e-1)` grains; 2047 is kept for the
  infinities and for what is not a number.
-/
import DiceNotation.Binary64.Basic

namespace DiceNotation.Binary64

/-- The value of a word in interchange form. -/
def ofBits (word : UInt64) : Binary64 :=
  let n := word.toNat
  let negative := n / 2 ^ 63 == 1
  let exponent := n / 2 ^ 52 % 2 ^ 11
  let fraction := n % 2 ^ 52
  if exponent = 2047 then
    if fraction = 0 then infinite negative else nan
  else if exponent = 0 then
    ofQuotient negative fraction 1
  else
    ofQuotient negative ((2 ^ 52 + fraction) * 2 ^ (exponent - 1)) 1

/-- The sign, exponent and fraction put together. -/
def packBits (negative : Bool) (exponent fraction : Nat) : UInt64 :=
  UInt64.ofNat ((if negative then 2 ^ 63 else 0) + exponent * 2 ^ 52 + fraction)

/-- The word in interchange form; what is not a number gets the quiet form without payload. -/
def toBits : Binary64 → UInt64
  | nan => packBits false 2047 (2 ^ 51)
  | infinite negative => packBits negative 2047 0
  | finite negative grains _ =>
    if grains < 2 ^ 52 then
      packBits negative 0 grains
    else
      packBits negative (grains.log2 - 51) (grains / spacing grains - 2 ^ 52)

end DiceNotation.Binary64
