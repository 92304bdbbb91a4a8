/-
  Whole numbers as text.

  `ofNat` and `ofInt` write in decimal, with a minus sign and no leading zero.  Three readers take
  a text as a whole, and differ in what they let through:

  1. `digits?` takes any run of decimal digits, leading zeros included.
  2. `unsigned?` takes the same with one `+` in front.
  3. `signed?` takes a 64-bit integer in its plain spelling: an optional sign and a first digit
     that is not zero, or the single character `0`.  So `007`, `-0` and `+0` are refused.

  `signed?` reads back what `ofInt` writes, for every 64-bit integer; the spelling is what makes
  it the only way to write one, but for the plus sign.
-/
import DiceNotation.Text.Blank

namespace DiceNotation.Numeral

open Text

/-! ## Writing -/

/-- A natural number in decimal. -/
def ofNat (n : Nat) : Text :=
  Nat.toDigits 10 n

/-- An integer in decimal, with a minus sign below zero. -/
def ofInt (i : Int) : Text :=
  if i < 0 then '-' :: ofNat i.natAbs else ofNat i.natAbs

/-! ## Reading -/

/-- The value of a run of decimal digits. -/
def value (s : Text) : Nat :=
  Nat.ofDigitChars 10 s 0

/-- One or more decimal digits, leading zeros allowed. -/
def digits? (s : Text) : Option Nat :=
  if s ≠ [] ∧ s.all Char.isDigit then some (value s) else none

/-- Decimal digits after at most one plus sign. -/
def unsigned? : Text → Option Nat
  | '+' :: s => digits? s
  | s => digits? s

/-- Decimal digits of which the first is not zero. -/
def positive? (s : Text) : Option Nat :=
  if s.head? = some '0' then none else digits? s

/-- An integer that is written plainly: `0`, or an optional sign and digits that do not start with
    a zero. -/
def plain? : Text → Option Int
  | ['0'] => some 0
  | '+' :: s => (positive? s).map Int.ofNat
  | '-' :: s => (positive? s).map fun n => -Int.ofNat n
  | s => (positive? s).map Int.ofNat

/-- A plainly written integer that fits 64 signed bits, as a word. -/
def signed? (s : Text) : Option Int64 := do
  let i ← plain? s
  if Int64.minValue.toInt ≤ i ∧ i ≤ Int64.maxValue.toInt then some (Int64.ofInt i) else none

end DiceNotation.Numeral
