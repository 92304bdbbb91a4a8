/-
  Colours for luck: red for the least, green for the most, through yellow.

  A position between 0 and 1 is a hue on a third of the colour circle, at a fixed saturation and
  brightness (`ofPosition`).  `ofHsv` takes any hue: the circle has six sectors, and in each of them
  one channel is full, one is at its least, and one moves between the two.  Channels are cut to
  bytes.  Everything is computed in binary64, so a channel can be one less than it would be in the
  reals.
-/
import DiceNotation.Binary64.Arithmetic
import DiceNotation.Text.Blank

namespace DiceNotation

/-- A colour of three bytes. -/
structure Colour where
  red : UInt8
  green : UInt8
  blue : UInt8
  deriving DecidableEq

namespace Colour

/-- Four fifths, the saturation and the brightness of every colour of luck. -/
def fourFifths : Binary64 :=
  (4 : Binary64) / 5

/-- The three channels, from 0 to 1, of a hue (a fraction of the circle), a saturation and a
    brightness. -/
def channels (hue saturation value : Binary64) : Binary64 × Binary64 × Binary64 :=
  if saturation.isZero then
    (value, value, value)
  else
    let sector := (hue * 6).floor
    let along := hue * 6 - sector
    let least := value * (1 - saturation)
    let falling := value * (1 - saturation * along)
    let rising := value * (1 - saturation * (1 - along))
    match sector.toInt64.toInt % 6 with
    | 0 => (value, rising, least)
    | 1 => (falling, value, least)
    | 2 => (least, value, rising)
    | 3 => (least, falling, value)
    | 4 => (rising, least, value)
    | _ => (value, least, falling)

/-- The colour of a hue, a saturation and a brightness. -/
def ofHsv (hue saturation value : Binary64) : Colour :=
  let (red, green, blue) := channels hue saturation value
  ⟨(red * 255).toByte, (green * 255).toByte, (blue * 255).toByte⟩

/-- A value moved to the nearer end if it lies outside 0 to 1. -/
def clamp (value : Binary64) : Binary64 :=
  if value.below 0 then 0
  else if (1 : Binary64).below value then 1
  else value

/-- The colour of a position: red at 0, green at 1. -/
def ofPosition (position : Binary64) : Colour :=
  ofHsv (clamp position * 120 / 360) fourFifths fourFifths

/-- A byte in two hexadecimal digits. -/
def byteText (byte : UInt8) : Text :=
  let digits := Nat.toDigits 16 byte.toNat
  List.replicate (2 - digits.length) '0' ++ digits

/-- A colour as `#rrggbb`. -/
def text (colour : Colour) : Text :=
  ['#'] ++ byteText colour.red ++ byteText colour.green ++ byteText colour.blue

/-- The mean of some positions; there is none of nothing. -/
def mean? (positions : List Binary64) : Option Binary64 :=
  match positions with
  | [] => none
  | _ => some (Binary64.sum positions / .ofInt positions.length)

end Colour

end DiceNotation
