/-
  Tokenizers, which can fail.

  The cuts of this library have a result for every text (`upTo`, `cut`, `split`).  A tokenizer takes one
  token after another off the front, may fail at each of them, and has failed as well if something is
  left at the end (`whole`).  Whoever reads with tokenizers has to say what becomes of a text that they
  refuse; so it is worth knowing that there is none.

  1. A tokenizer that takes one marked character (`TakesMark`) and then the text up to the next one
     stops at the end of the text and nowhere else.  So a repetition of it never gets stuck: it never
     takes nothing, and nothing is left (`many_marked`).
  2. Hence a text with marks is taken apart as `cut` does it (`whole_marked`), and a text with separators
     as `split` does it (`whole_separated`), each of them whatever the text is.
-/
import DiceNotation.Proofs.Text.Cutting

namespace DiceNotation

open Text

/-- Takes a token off the front of a text and leaves the rest of it, or fails. -/
abbrev Tokenizer (α : Type) := Text → Option (α × Text)

namespace Tokenizer

variable {α β : Type} {p : Char → Bool} {mark : Char → Option α} {s : Text}

/-! ## Tokens -/

/-- What stands in front of the first character that `p` accepts, be it nothing. -/
def till (p : Char → Bool) : Tokenizer Text := fun s =>
  some (s.upTo p, s.onward p)

/-- One character that `p` accepts. -/
def one (p : Char → Bool) : Tokenizer Char
  | [] => none
  | c :: s => if p c then some (c, s) else none

/-- All that there is. -/
def rest : Tokenizer Text := fun s =>
  some (s, [])

/-- No token. -/
def nothing (a : α) : Tokenizer α := fun s =>
  some (a, s)

/-- The token as something else, if it can be that. -/
def verify (t : Tokenizer α) (f : α → Option β) : Tokenizer β := fun s => do
  let (a, s) ← t s
  let b ← f a
  return (b, s)

/-- The token as something else. -/
def map (f : α → β) (t : Tokenizer α) : Tokenizer β :=
  t.verify fun a => some (f a)

/-- One token and then another. -/
def andThen (t : Tokenizer α) (u : Tokenizer β) : Tokenizer (α × β) := fun s => do
  let (a, s) ← t s
  let (b, s) ← u s
  return ((a, b), s)

/-- One token, or another one in its place. -/
def orElse (t u : Tokenizer α) : Tokenizer α := fun s =>
  (t s).or (u s)

/-- As many tokens as there are.  A token of no characters could be taken for ever and is refused. -/
def many (t : Tokenizer α) (s : Text) : Option (List α × Text) :=
  match t s with
  | none => some ([], s)
  | some (a, left) =>
    if left.length < s.length then (many t left).map fun x => (a :: x.1, x.2)
    else none
termination_by s.length

/-- Tokens with a separator between each two of them, at least one. -/
def separated (t : Tokenizer α) (separator : Tokenizer β) : Tokenizer (List α) :=
  (t.andThen (many (separator.andThen t))).map fun x => x.1 :: x.2.map (·.2)

/-- A leading text, and what each mark stands for with the text up to the next one. -/
def marked (p : Char → Bool) (mark : Char → Option α) : Tokenizer (Text × List (α × Text)) :=
  (till p).andThen (many (((one p).verify mark).andThen (till p)))

/-- The token of a text that has nothing behind it. -/
def whole (t : Tokenizer α) (s : Text) : Option α :=
  match t s with
  | some (a, []) => some a
  | _ => none

/-! ## Links -/

theorem map_eq {t : Tokenizer α} {a : α} {left : Text} (f : α → β) (h : t s = some (a, left)) :
    t.map f s = some (f a, left) := by
  unfold map verify
  rw [h]
  rfl

theorem andThen_eq {t : Tokenizer α} {u : Tokenizer β} {a : α} {b : β} {left last : Text}
    (ht : t s = some (a, left)) (hu : u left = some (b, last)) :
    t.andThen u s = some ((a, b), last) := by
  unfold andThen
  rw [ht]
  show (u left >>= fun x => some ((a, x.1), x.2)) = _
  rw [hu]
  rfl

theorem andThen_eq_none {t : Tokenizer α} (u : Tokenizer β) (h : t s = none) :
    t.andThen u s = none := by
  unfold andThen
  rw [h]
  rfl

theorem orElse_eq {t : Tokenizer α} (u : Tokenizer α) {x : α × Text} (h : t s = some x) :
    t.orElse u s = some x := by
  rw [orElse, h, Option.some_or]

theorem orElse_eq_of_none {t : Tokenizer α} (u : Tokenizer α) (h : t s = none) :
    t.orElse u s = u s := by
  rw [orElse, h, Option.none_or]

theorem whole_eq {t : Tokenizer α} {a : α} (h : t s = some (a, [])) : t.whole s = some a := by
  rw [whole, h]

/-! ## One marked character -/

/-- The tokenizer takes one character, as what that marks. -/
structure TakesMark (mark : Char → Option α) (t : Tokenizer α) : Prop where
  empty : t [] = none
  first : ∀ c s, t (c :: s) = (mark c).map (·, s)

/-- Each character of a set as a mark that stands for itself. -/
def ofSet (p : Char → Bool) (c : Char) : Option Char :=
  if p c then some c else none

theorem isMark_ofSet (p : Char → Bool) : isMark (ofSet p) = p := by
  funext c
  unfold isMark ofSet
  cases p c <;> rfl

theorem takesMark_one (p : Char → Bool) : TakesMark (ofSet p) (one p) where
  empty := rfl
  first c s := by
    show (if p c then some (c, s) else none) = (ofSet p c).map (·, s)
    unfold ofSet
    split
    · rfl
    · rfl

/-- A set of marks that says the same as what they stand for does not get in the way. -/
theorem takesMark_verify (h : ∀ c, p c = isMark mark c) :
    TakesMark mark ((one p).verify mark) where
  empty := rfl
  first c s := by
    show ((if p c then some (c, s) else none) >>= fun x => mark x.1 >>= fun b => some (b, x.2)) = _
    rw [h c, isMark]
    cases hc : mark c with
    | none => rfl
    | some a =>
      show (mark c >>= fun b => some (b, s)) = _
      rw [hc]
      rfl

/-! ## Runs of marks -/

/-- **A repetition of marks with what is behind them ends at the end of the text.**  Induction on the
    length: what is left behind a mark starts with the next one. -/
theorem many_marked {t : Tokenizer α} (ht : TakesMark mark t) (s : Text)
    (hopen : s.OpensWith (isMark mark)) :
    many (t.andThen (till (isMark mark))) s = some ((s.cut mark).2, []) := by
  match s with
  | [] =>
    rw [many, andThen_eq_none _ ht.empty]
    rfl
  | c :: s =>
    obtain ⟨a, ha⟩ := Option.isSome_iff_exists.mp (opensWith_cons.mp hopen)
    have hfirst : t.andThen (till (isMark mark)) (c :: s)
        = some ((a, Text.upTo (isMark mark) s), Text.onward (isMark mark) s) := by
      have hmark := ht.first c s
      rw [ha] at hmark
      exact andThen_eq hmark rfl
    have hshort : (Text.onward (isMark mark) s).length < (c :: s).length :=
      Nat.lt_succ_of_le (List.dropWhile_suffix _).length_le
    have hothers := many_marked ht (Text.onward (isMark mark) s) (opensWith_onward _ _)
    rw [many, hfirst]
    simp only [if_pos hshort, hothers, Option.map_some, cut_onward, cut_cons_of_some ha, cut_fst]
termination_by s.length
decreasing_by exact hshort

/-- **A text with marks is never refused**, and is taken apart as it is cut. -/
theorem whole_marked (h : ∀ c, p c = isMark mark c) (s : Text) :
    (marked p mark).whole s = some (s.cut mark) := by
  obtain rfl : p = isMark mark := funext h
  apply whole_eq
  have hruns := many_marked (takesMark_verify h) (s.onward (isMark mark)) (opensWith_onward _ _)
  rw [cut_onward] at hruns
  have hboth : marked (isMark mark) mark s = some ((s.upTo (isMark mark), (s.cut mark).2), []) :=
    andThen_eq rfl hruns
  rw [hboth, ← cut_fst]

/-! ## Separators -/

theorem separated_till (p : Char → Bool) (s : Text) :
    separated (till p) (one p) s = some (s.split p, []) := by
  have hruns := many_marked (takesMark_one p) (s.onward p)
  have hsplit := split_eq_cut (ofSet p) s
  have honward := cut_onward (ofSet p) s
  rw [isMark_ofSet] at hruns hsplit honward
  have hboth : (till p).andThen (many ((one p).andThen (till p))) s
      = some ((s.upTo p, ((s.onward p).cut (ofSet p)).2), []) :=
    andThen_eq rfl (hruns (opensWith_onward p s))
  rw [separated, map_eq _ hboth, hsplit, honward, cut_fst, isMark_ofSet]

/-- **A text with separators is never refused**, and is taken apart as it is split. -/
theorem whole_separated (p : Char → Bool) (s : Text) :
    (separated (till p) (one p)).whole s = some (s.split p) :=
  whole_eq (separated_till p s)

end Tokenizer

end DiceNotation
