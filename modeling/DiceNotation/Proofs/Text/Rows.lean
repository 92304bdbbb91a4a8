/-
  Rows of items, and texts that are split at a separator.

  1. `rows` loses nothing and reorders nothing (`flatten_rows`), and every row but the last is full
     (`fullRows_rows`); a size of zero counts as one.
  2. `splitOn` splits a text at a separator of one character or more, found from left to right.  It
     undoes joining (`splitOn_intercalate`) where no piece has the first character of the separator
     in it: then no occurrence can begin inside a piece.  That is the same fact as
     `split_intercalate`, for more than one character.
  3. Lines may have a mark in front.  Joined with a separator that ends in the mark they are lines
     that were joined without it (`intercalate_marked`).
-/
import DiceNotation.Proofs.Text.Cutting

namespace DiceNotation.Text

/-! ## Rows -/

section Rows

variable {α : Type}

/-- Every row but the last has `size` items, and the last one has between one and `size`. -/
def FullRows (size : Nat) (rows : List (List α)) : Prop :=
  (∀ row ∈ rows.dropLast, row.length = size)
    ∧ ∀ row ∈ rows.getLast?, 1 ≤ row.length ∧ row.length ≤ size

theorem rows_nil (size : Nat) : rows size ([] : List α) = [] := by
  rw [rows]

theorem rows_cons (size : Nat) (x : α) (xs : List α) :
    rows size (x :: xs) = (x :: xs.take (size - 1)) :: rows size (xs.drop (size - 1)) := by
  rw [rows]

/-- **Rows keep every item and its place.** -/
theorem flatten_rows (size : Nat) (xs : List α) : (rows size xs).flatten = xs := by
  induction xs using rows.induct size with
  | case1 => rw [rows_nil, List.flatten_nil]
  | case2 x xs ih => rw [rows_cons, List.flatten_cons, ih, List.cons_append, List.take_append_drop]

theorem rows_ne_nil (size : Nat) {xs : List α} (h : xs ≠ []) : rows size xs ≠ [] := by
  cases xs with
  | nil => exact absurd rfl h
  | cons x xs =>
    rw [rows_cons]
    exact List.cons_ne_nil _ _

theorem ne_nil_of_mem_rows {size : Nat} {xs row : List α} (h : row ∈ rows size xs) : row ≠ [] := by
  induction xs using rows.induct size with
  | case1 =>
    rw [rows_nil] at h
    exact absurd h List.not_mem_nil
  | case2 x xs ih =>
    rw [rows_cons] at h
    rcases List.mem_cons.mp h with rfl | h
    · exact List.cons_ne_nil _ _
    · exact ih h

/-- **Every row but the last is full.** -/
theorem fullRows_rows (size : Nat) (xs : List α) : FullRows (max 1 size) (rows size xs) := by
  induction xs using rows.induct size with
  | case1 =>
    rw [rows_nil]
    exact ⟨fun row h => absurd h List.not_mem_nil, fun row h => absurd h (Option.not_mem_none row)⟩
  | case2 x xs ih =>
    have hlen : (x :: xs.take (size - 1)).length = min (size - 1) xs.length + 1 := by
      rw [List.length_cons, List.length_take]
    rw [rows_cons]
    cases hrest : xs.drop (size - 1) with
    | nil =>
      -- the only row, which has what is left
      rw [rows_nil]
      refine ⟨fun row h => absurd h List.not_mem_nil, fun row h => ?_⟩
      obtain rfl : x :: xs.take (size - 1) = row := Option.some.inj h
      omega
    | cons y ys =>
      have hmore : size - 1 < xs.length := by
        have := congrArg List.length hrest
        rw [List.length_drop, List.length_cons] at this
        omega
      rw [hrest, rows_cons] at ih
      rw [rows_cons]
      constructor
      · intro row h
        rw [List.dropLast_cons_cons] at h
        rcases List.mem_cons.mp h with rfl | h
        · omega
        · exact ih.1 row h
      · intro row h
        rw [List.getLast?_cons_cons] at h
        exact ih.2 row h

end Rows

/-! ## Splitting at a separator -/

/-- The pieces between the occurrences of a separator, which are found from left to right. -/
def splitOn {α : Type} [BEq α] (separator : List α) : List α → List (List α)
  | [] => [[]]
  | c :: s =>
    if separator.isPrefixOf (c :: s) then
      [] :: splitOn separator (s.drop (separator.length - 1))
    else
      (splitOn separator s).modifyHead (c :: ·)
termination_by s => s.length
decreasing_by
  · simp only [List.length_drop, List.length_cons]
    omega
  · simp only [List.length_cons]
    omega

section SplitOn

variable {c : Char}

theorem splitOn_nil (separator : Text) : splitOn separator [] = [[]] := by
  rw [splitOn]

/-- A separator ends a piece. -/
theorem splitOn_separator (c : Char) (separator s : Text) :
    splitOn (c :: separator) (c :: separator ++ s) = [] :: splitOn (c :: separator) s := by
  have hprefix : (c :: separator).isPrefixOf (c :: (separator ++ s)) = true :=
    List.isPrefixOf_iff_prefix.mpr (List.prefix_append (c :: separator) s)
  rw [List.cons_append, splitOn, if_pos hprefix, List.length_cons, Nat.add_sub_cancel,
    List.drop_left]

/-- No separator begins inside a text that has not its first character. -/
theorem splitOn_append {piece : Text} (h : piece.FreeOf (· == c)) (separator s : Text) :
    splitOn (c :: separator) (piece ++ s)
      = (splitOn (c :: separator) s).modifyHead (piece ++ ·) := by
  induction piece with
  | nil => exact (congrFun List.modifyHead_id _).symm
  | cons d piece ih =>
    obtain ⟨hd, hpiece⟩ := freeOf_cons.mp h
    have hprefix : ¬ (c :: separator).isPrefixOf (d :: (piece ++ s)) = true := by
      intro hprefix
      obtain ⟨rest, hrest⟩ := List.isPrefixOf_iff_prefix.mp hprefix
      have hsame : c = d := (List.cons.inj hrest).1
      rw [hsame, beq_self_eq_true] at hd
      exact absurd hd (by decide)
    rw [List.cons_append, splitOn, if_neg hprefix, ih hpiece, List.modifyHead_modifyHead]
    rfl

/-- **Splitting undoes joining**, as long as no piece has the first character of the separator. -/
theorem splitOn_intercalate (separator piece : Text) (pieces : List Text)
    (h : ∀ s ∈ piece :: pieces, s.FreeOf (· == c)) :
    splitOn (c :: separator) (List.intercalate (c :: separator) (piece :: pieces))
      = piece :: pieces := by
  have hpiece := h piece List.mem_cons_self
  induction pieces generalizing piece with
  | nil =>
    have hsplit := splitOn_append hpiece separator []
    rw [List.append_nil, splitOn_nil] at hsplit
    rw [List.intercalate_singleton, hsplit, List.modifyHead_cons, List.append_nil]
  | cons next pieces ih =>
    have htail := fun s hs => h s (List.mem_cons_of_mem _ hs)
    rw [List.intercalate_cons_cons, List.append_assoc, splitOn_append hpiece, splitOn_separator,
      ih next htail (htail next List.mem_cons_self), List.modifyHead_cons, List.append_nil]

end SplitOn

/-! ## Joining lines that begin with a mark -/

/-- A mark in front of every line may be taken for a part of the separator. -/
theorem intercalate_marked (c : Char) (mark last line : Text) (lines : List Text) :
    mark ++ (List.intercalate (c :: mark) (line :: lines) ++ c :: last)
      = List.intercalate [c] ((line :: lines).map (mark ++ ·) ++ [last]) := by
  induction lines generalizing line with
  | nil =>
    show mark ++ (List.intercalate (c :: mark) [line] ++ c :: last)
      = List.intercalate [c] [mark ++ line, last]
    rw [List.intercalate_singleton, List.intercalate_cons_cons, List.intercalate_singleton,
      List.append_assoc, List.append_assoc]
    rfl
  | cons next lines ih =>
    calc mark ++ (List.intercalate (c :: mark) (line :: next :: lines) ++ c :: last)
        = mark ++ line ++ [c]
            ++ (mark ++ (List.intercalate (c :: mark) (next :: lines) ++ c :: last)) := by
          rw [List.intercalate_cons_cons]
          simp only [List.append_assoc, List.cons_append, List.nil_append]
      _ = mark ++ line ++ [c]
            ++ List.intercalate [c] ((next :: lines).map (mark ++ ·) ++ [last]) := by
          rw [ih next]
      _ = List.intercalate [c] ((line :: next :: lines).map (mark ++ ·) ++ [last]) := by
          simp only [List.map_cons, List.cons_append, List.intercalate_cons_cons]

end DiceNotation.Text
