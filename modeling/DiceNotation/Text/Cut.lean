/-
  Cutting text at marks, and a list into rows.

  A reader of expressions never walks an index: it says where the text is cut.  Three cuts are
  enough.

  1. `upTo p` is the text before the first character that `p` accepts, `onward p` the text from
     that character on; together they are the text (`upTo_append_onward`).
  2. `cut mark` cuts at EVERY marked character.  `mark` says what a character marks (an operator,
     a directive, nothing at all); the result is the text before the first mark and, for each mark
     in order, what it stands for with the text up to the next mark.
  3. `split p` forgets the marks and keeps the pieces between them, so it always has one piece more
     than the text has marks.

  `List.intercalate` goes the other way.  `rows` cuts a list not at marks but at every so many items.
-/
import DiceNotation.Text.Blank

namespace DiceNotation

namespace Text

/-! ## Cutting at the first mark -/

/-- The text before the first character that `p` accepts; all of it when there is none. -/
def upTo (p : Char → Bool) (s : Text) : Text :=
  s.takeWhile fun c => !p c

/-- The text from the first character that `p` accepts on; nothing when there is none. -/
def onward (p : Char → Bool) (s : Text) : Text :=
  s.dropWhile fun c => !p c

/-- The two parts are the whole, in order. -/
theorem upTo_append_onward (p : Char → Bool) (s : Text) : s.upTo p ++ s.onward p = s :=
  List.takeWhile_append_dropWhile

/-! ## Cutting at every mark -/

/-- The text before the first mark, then for each mark what it stands for and the text up to the
    next one. -/
def cut {α : Type} (mark : Char → Option α) : Text → Text × List (α × Text)
  | [] => ([], [])
  | c :: s =>
    let (head, tail) := cut mark s
    match mark c with
    | none => (c :: head, tail)
    | some a => ([], (a, head) :: tail)

/-- The pieces between the characters that `p` accepts, empty ones included. -/
def split (p : Char → Bool) (s : Text) : List Text :=
  let (head, tail) := s.cut fun c => if p c then some () else none
  head :: tail.map (·.2)

/-! ## Rows -/

/-- The items in rows of `size`, the last row as long as what is left; a `size` of zero counts
    as one. -/
def rows {α : Type} (size : Nat) : List α → List (List α)
  | [] => []
  | x :: xs => (x :: xs.take (size - 1)) :: rows size (xs.drop (size - 1))
termination_by xs => xs.length
decreasing_by simp only [List.length_drop, List.length_cons]; omega

end Text

end DiceNotation
