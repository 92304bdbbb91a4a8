/-
  Text, and the characters that count as blank in it.

  Everything in this library that is read or written is a `Text`, a list of characters: an
  expression, a piece cut out of it, the rows of a report.  A `String` appears only at the outer
  edge, where a whole line arrives or leaves.

  Two notions of blank are kept apart, because readers and trimmers use different ones:

  1. `isBlank` is the Unicode property White_Space: 25 characters in 10 closed ranges
     (`blankRanges`, the same in every Unicode version since 6.3).  `trim`, `trimEnd` and
     `isAllBlank` go by it.
  2. `isGap` is a space or a tab and nothing else.  A number reader steps over gaps (`trimGap`) and
     stumbles over every other blank.

  Every gap is blank (`isBlank_of_isGap`), so what `trim` leaves has no gap at its ends either.
-/

namespace DiceNotation

/-- Text as the readers and printers of this library see it, one character after another. -/
abbrev Text := List Char

namespace Text

/-! ## Blank characters -/

/-- The ranges of the Unicode property White_Space, ascending and apart. -/
def blankRanges : List (Nat × Nat) :=
  [(0x09, 0x0D), (0x20, 0x20), (0x85, 0x85), (0xA0, 0xA0), (0x1680, 0x1680), (0x2000, 0x200A),
    (0x2028, 0x2029), (0x202F, 0x202F), (0x205F, 0x205F), (0x3000, 0x3000)]

/-- A character with the Unicode property White_Space. -/
def isBlank (c : Char) : Bool :=
  blankRanges.any fun r => r.1 ≤ c.toNat && c.toNat ≤ r.2

/-- A space or a tab: the only characters a number reader steps over. -/
def isGap (c : Char) : Bool :=
  c == ' ' || c == '\t'

theorem isBlank_of_isGap {c : Char} (h : isGap c = true) : isBlank c = true := by
  simp only [isGap, Bool.or_eq_true, beq_iff_eq] at h
  rcases h with h | h <;> subst h <;> decide

/-! ## Trimming -/

/-- The text without the characters at its end for which `p` holds. -/
def dropEnd (p : Char → Bool) (s : Text) : Text :=
  (s.reverse.dropWhile p).reverse

/-- The text without the blanks at its end. -/
def trimEnd (s : Text) : Text :=
  dropEnd isBlank s

/-- The text without the blanks at either end. -/
def trim (s : Text) : Text :=
  trimEnd (s.dropWhile isBlank)

/-- The text without the spaces and tabs at either end. -/
def trimGap (s : Text) : Text :=
  dropEnd isGap (s.dropWhile isGap)

/-- Nothing but blanks, or nothing at all. -/
def isAllBlank (s : Text) : Bool :=
  s.all isBlank

end Text

end DiceNotation
