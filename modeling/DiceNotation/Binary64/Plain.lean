/-
  Binary64 numbers as text.

  `text` writes a number with the fewest digits that read back to it, always positionally and never
  with an exponent: `1e21` is a one and 21 zeros.  A whole number has no point, and what follows a
  point does not end in a zero.  The zero below zero is `-0`; the values that are no numbers are
  `inf`, `-inf` and `NaN`.

  `ofText?` reads more than `text` writes.  A number is an optional sign; digits with at most one
  point among, before or after them, at least one digit in all; and an optional exponent, which
  again needs a digit.  It is rounded once, and may be infinite.  The words for the values that are
  no numbers are not numbers, and are not read.
-/
import DiceNotation.Binary64.Decimal
import DiceNotation.Text.Cut

namespace DiceNotation

open Text

/-! ## Writing -/

/-- The digits after the point, when there are any: a point and the last `places` digits, without
    zeros at the end. -/
def Decimal.fractionText (places fraction : Nat) : Text :=
  let digits := Numeral.ofNat fraction
  let padded := List.replicate (places - digits.length) '0' ++ digits
  match Text.dropEnd (· == '0') padded with
  | [] => []
  | kept => '.' :: kept

/-- A decimal written positionally. -/
def Decimal.plainText (d : Decimal) : Text :=
  match d.exponent with
  | .ofNat e => Numeral.ofNat d.digits ++ List.replicate e '0'
  | .negSucc e =>
    Numeral.ofNat (d.digits / 10 ^ (e + 1)) ++
      Decimal.fractionText (e + 1) (d.digits % 10 ^ (e + 1))

namespace Binary64

/-- A minus sign or nothing. -/
def signText (negative : Bool) : Text :=
  if negative then ['-'] else []

/-- A value with the fewest digits that read back to it, without an exponent. -/
def text : Binary64 → Text
  | nan => ['N', 'a', 'N']
  | infinite negative => signText negative ++ ['i', 'n', 'f']
  | finite negative grains _ =>
    signText negative ++
      if grains = 0 then ['0'] else (Decimal.shortest grains).plainText

/-! ## Reading -/

/-- A sign in front of a text, and the rest. -/
def takeSign : Text → Bool × Text
  | '+' :: s => (false, s)
  | '-' :: s => (true, s)
  | s => (false, s)

/-- What may follow the digits of a number: nothing, or an exponent of at least one digit. -/
def exponent? : Text → Option Int
  | [] => some 0
  | c :: s =>
    if c = 'e' ∨ c = 'E' then
      let (negative, digits) := takeSign s
      (Numeral.digits? digits).map (signed negative)
    else
      none

/-- Digits with at most one point, and an exponent. -/
def decimal? (s : Text) : Option Decimal :=
  let whole := s.takeWhile Char.isDigit
  let rest := s.dropWhile Char.isDigit
  let (fraction, tail) : Text × Text :=
    match rest with
    | '.' :: t => (t.takeWhile Char.isDigit, t.dropWhile Char.isDigit)
    | _ => ([], rest)
  if whole = [] ∧ fraction = [] then
    none
  else
    (exponent? tail).map fun e => ⟨Numeral.value (whole ++ fraction), e - fraction.length⟩

/-- The number that a whole text writes, rounded to nearest. -/
def ofText? (s : Text) : Option Binary64 :=
  let (negative, digits) := takeSign s
  (decimal? digits).map (Decimal.toBinary64 negative)

end Binary64

end DiceNotation
