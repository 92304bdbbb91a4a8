/-
  Layouts keep every value.

  Whatever a layout puts between the values, they can be read back out of it: every value once, in
  order, as it is shown (`layouts_keep`).  A row splits at ", ", and rows split at line ends before
  that.  Both work because no shown value has a comma or a line end in it (`freeOf_valueText`), with
  asterisks around it or without.

  The framed form of an outcome writes its rows by itself, from numbers that have not been settled
  first.  They are the same texts (`valueText_none`), in rows of 20 (`split_text`).
-/
import DiceNotation.Proofs.Field.Settle
import DiceNotation.Proofs.Text.Rows

namespace DiceNotation

open Text

/-! ## Shown values -/

section Shown

variable {p : Char → Bool}

theorem freeOf_numberText (hp : FreeOf p glyphs) (value : Binary64) :
    FreeOf p (numberText value) :=
  fun c hc => hp c (numberText_subset_glyphs value hc)

/-- What shown values are never written with may be cut at. -/
theorem freeOf_valueText (hp : FreeOf p ('*' :: glyphs)) (threshold : Option Threshold)
    (value : Binary64) : FreeOf p (valueText threshold value) := by
  have hnumber : FreeOf p (numberText (settle value)) :=
    freeOf_numberText (freeOf_cons.mp hp).2 _
  have hbold : FreeOf p ['*', '*'] := by
    intro c hc
    rcases List.mem_cons.mp hc with rfl | hc
    · exact hp _ List.mem_cons_self
    · rw [List.mem_singleton.mp hc]
      exact hp _ List.mem_cons_self
  unfold valueText
  cases threshold with
  | none => exact hnumber
  | some threshold =>
    show FreeOf p (if threshold.passes (settle value)
      then ['*', '*'] ++ numberText (settle value) ++ ['*', '*'] else numberText (settle value))
    split
    · exact freeOf_append.mpr ⟨freeOf_append.mpr ⟨hbold, hnumber⟩, hbold⟩
    · exact hnumber

theorem freeOf_shown (hp : FreeOf p ('*' :: glyphs)) (threshold : Option Threshold)
    (values : List Binary64) : ∀ s ∈ values.map (valueText threshold), FreeOf p s := by
  intro s hs
  obtain ⟨value, -, rfl⟩ := List.mem_map.mp hs
  exact freeOf_valueText hp threshold value

end Shown

/-- Without a threshold a value is shown as its number. -/
theorem valueText_none (value : Binary64) : valueText none value = numberText value :=
  numberText_settle value

/-! ## Rows of shown values -/

/-- Texts that have no comma are read back from their row. -/
theorem splitOn_rowText {texts : List Text} (hne : texts ≠ [])
    (h : ∀ s ∈ texts, s.FreeOf (· == ',')) : splitOn [',', ' '] (rowText texts) = texts := by
  cases texts with
  | nil => exact absurd rfl hne
  | cons piece pieces => exact splitOn_intercalate [' '] piece pieces h

/-- Lines that hold some texts in rows: split at ", " they have every text once and in order, and
    every line but the last is full. -/
def HoldRows (size : Nat) (texts lines : List Text) : Prop :=
  (lines.map (splitOn [',', ' '])).flatten = texts
    ∧ FullRows size (lines.map (splitOn [',', ' ']))

theorem holdRows_rows (size : Nat) {texts : List Text} (h : ∀ s ∈ texts, s.FreeOf (· == ',')) :
    HoldRows (max 1 size) texts ((rows size texts).map rowText) := by
  have hback : ((rows size texts).map rowText).map (splitOn [',', ' ']) = rows size texts := by
    rw [List.map_map]
    conv => rhs; rw [← List.map_id (rows size texts)]
    apply List.map_congr_left
    intro row hrow
    apply splitOn_rowText (ne_nil_of_mem_rows hrow)
    intro s hs
    apply h
    rw [← flatten_rows size texts]
    exact List.mem_flatten_of_mem hrow hs
  unfold HoldRows
  rw [hback]
  exact ⟨flatten_rows size texts, fullRows_rows size texts⟩

/-- Rows have no characters but those of their texts and of the separator. -/
theorem freeOf_rows {p : Char → Bool} (size : Nat) (hsep : FreeOf p [',', ' ']) {texts : List Text}
    (h : ∀ s ∈ texts, FreeOf p s) : ∀ row ∈ rows size texts, FreeOf p (rowText row) := by
  intro row hrow
  apply freeOf_intercalate hsep
  intro s hs
  apply h
  rw [← flatten_rows size texts]
  exact List.mem_flatten_of_mem hrow hs

/-- Lines that have no line end inside are read back from their text. -/
theorem split_lines {lines : List Text} (hne : lines ≠ [])
    (h : ∀ line ∈ lines, line.FreeOf (· == '\n')) :
    split (· == '\n') (List.intercalate ['\n'] lines) = lines := by
  cases lines with
  | nil => exact absurd rfl hne
  | cons line lines => exact split_intercalate (by decide) line lines h

/-! ## The framed form -/

namespace Outcome

/-- What stands behind the headline of the framed form, line by line: the rows and the sum, each
    behind a bar. -/
theorem text_eq (outcome : Outcome) (hne : outcome.final ≠ []) :
    outcome.text = "┏━━━━ ".toList ++ outcome.source ++ " ━━━━\n".toList
      ++ List.intercalate ['\n']
        (((rows frameRowSize (outcome.final.map numberText)).map rowText).map ("┃ ".toList ++ ·)
          ++ ["┃ sum: ".toList ++ sumText outcome.final]) := by
  have hsome : rows frameRowSize (outcome.final.map numberText) ≠ [] :=
    rows_ne_nil frameRowSize (by simpa using hne)
  have htop : " ━━━━\n┃ ".toList = " ━━━━\n".toList ++ "┃ ".toList := by decide
  have hbar : "\n┃ ".toList = '\n' :: "┃ ".toList := by decide
  have hsum : "\n┃ sum: ".toList = '\n' :: "┃ sum: ".toList := by decide
  unfold text
  simp only
  rw [htop, hbar, hsum]
  cases hrows : rows frameRowSize (outcome.final.map numberText) with
  | nil => exact absurd hrows hsome
  | cons row more =>
    rw [List.map_cons, ← intercalate_marked]
    simp only [List.append_assoc, List.cons_append]

/-- **The framed form holds the values in rows of 20.** -/
theorem split_text (outcome : Outcome) (hne : outcome.final ≠ []) :
    ∃ rest lines, outcome.text = "┏━━━━ ".toList ++ outcome.source ++ " ━━━━\n".toList ++ rest
      ∧ split (· == '\n') rest
        = lines.map ("┃ ".toList ++ ·) ++ ["┃ sum: ".toList ++ sumText outcome.final]
      ∧ HoldRows 20 (outcome.final.map (valueText none)) lines := by
  have hshown : outcome.final.map numberText = outcome.final.map (valueText none) :=
    List.map_congr_left fun value _ => (valueText_none value).symm
  rw [← hshown]
  have hfree : ∀ c, FreeOf (· == c) glyphs → ∀ s ∈ outcome.final.map numberText,
      s.FreeOf (· == c) := by
    intro c hc s hs
    obtain ⟨value, -, rfl⟩ := List.mem_map.mp hs
    exact freeOf_numberText hc value
  have hend := hfree '\n' (by decide)
  refine ⟨_, _, outcome.text_eq hne, ?_, holdRows_rows frameRowSize (hfree ',' (by decide))⟩
  apply split_lines (List.append_ne_nil_of_right_ne_nil _ (List.cons_ne_nil _ _))
  intro line hline
  rcases List.mem_append.mp hline with hline | hline
  · simp only [List.mem_map] at hline
    obtain ⟨-, ⟨row, hrow, rfl⟩, rfl⟩ := hline
    exact freeOf_append.mpr ⟨by decide, freeOf_rows frameRowSize (by decide) hend row hrow⟩
  · rw [List.mem_singleton.mp hline]
    exact freeOf_append.mpr ⟨by decide, freeOf_numberText (by decide) _⟩

end Outcome

/-! ## All layouts -/

/-- **No layout loses, doubles or moves a value.**  The list splits into the shown values, and so do
    the rows, which are full but for the last; several values come with their sum behind the list,
    and a single one comes as the list; and the framed form has the values as they are shown without
    a threshold, in rows of 20. -/
theorem Format.layouts_keep (values : List Binary64) (hne : values ≠ [])
    (threshold : Option Threshold) (size : Nat) (source : Text) (fallen : List Binary64) :
    splitOn [',', ' '] (Format.body ⟨.listOnly, size, threshold⟩ values)
        = values.map (valueText threshold)
      ∧ HoldRows (max 1 size) (values.map (valueText threshold))
          (split (· == '\n') (Format.body ⟨.rows, size, threshold⟩ values))
      ∧ (1 < values.length →
          Format.body ⟨.valuesAndSum, size, threshold⟩ values
            = Format.body ⟨.listOnly, size, threshold⟩ values ++ " (sum: ".toList
              ++ Format.body ⟨.sumOnly, size, threshold⟩ values ++ [')'])
      ∧ (values.length = 1 →
          Format.body ⟨.valuesAndSum, size, threshold⟩ values
            = Format.body ⟨.listOnly, size, threshold⟩ values)
      ∧ ∃ rest lines, (Outcome.mk source values fallen).text
            = "┏━━━━ ".toList ++ source ++ " ━━━━\n".toList ++ rest
          ∧ split (· == '\n') rest
            = lines.map ("┃ ".toList ++ ·) ++ ["┃ sum: ".toList ++ sumText values]
          ∧ HoldRows 20 (values.map (valueText none)) lines := by
  have hsome : values.map (valueText threshold) ≠ [] := by simpa using hne
  have hcomma := freeOf_shown (p := (· == ',')) (by decide) threshold values
  have hend := freeOf_shown (p := (· == '\n')) (by decide) threshold values
  refine ⟨splitOn_rowText hsome hcomma, ?_, ?_, ?_, Outcome.split_text ⟨source, values, fallen⟩ hne⟩
  · show HoldRows _ _ (split (· == '\n')
      (List.intercalate ['\n'] ((rows size (values.map (valueText threshold))).map rowText)))
    have hlines : ∀ line ∈ (rows size (values.map (valueText threshold))).map rowText,
        line.FreeOf (· == '\n') := by
      intro line hline
      obtain ⟨row, hrow, rfl⟩ := List.mem_map.mp hline
      exact freeOf_rows size (by decide) hend row hrow
    have hrows : (rows size (values.map (valueText threshold))).map rowText ≠ [] := by
      simpa using rows_ne_nil size hsome
    rw [split_lines hrows hlines]
    exact holdRows_rows size hcomma
  · intro hmany
    exact if_pos hmany
  · intro hone
    exact if_neg (by omega)

/-- Three values in rows of two, those from two up marked. -/
theorem Format.layouts_keep_three :
    [1, 2, 3] ≠ ([] : List Binary64)
      ∧ splitOn [',', ' '] (Format.body ⟨.listOnly, 2, some ⟨2, .upward⟩⟩ [1, 2, 3])
        = ["1".toList, "**2**".toList, "**3**".toList]
      ∧ HoldRows 2 ["1".toList, "**2**".toList, "**3**".toList]
          (split (· == '\n') (Format.body ⟨.rows, 2, some ⟨2, .upward⟩⟩ [1, 2, 3])) := by
  have hne : [1, 2, 3] ≠ ([] : List Binary64) := List.cons_ne_nil _ _
  have hshown : [1, 2, 3].map (valueText (some ⟨2, .upward⟩))
      = ["1".toList, "**2**".toList, "**3**".toList] := by
    decide +kernel
  obtain ⟨hlist, hrows, -⟩ := layouts_keep [1, 2, 3] hne (some ⟨2, .upward⟩) 2 [] []
  rw [hshown] at hlist hrows
  exact ⟨hne, hlist, hrows⟩

end DiceNotation
