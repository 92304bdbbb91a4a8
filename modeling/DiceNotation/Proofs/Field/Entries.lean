/-
  The entries of a body, told from its text.

  A body that shows a list has been put together by its layout.  Here it is taken apart again with
  nothing but the text at hand: no layout, no threshold and no values.

  1. The sum, if there is one, stands behind the first bracket (`sumPart`); a blank in front of the
     bracket is dropped, and what is left is the list (`listPart`).
  2. Line ends and commas cut the list into its entries (`entries`).
  3. An entry is a number with asterisks around it or without (`bold`), and a number has no asterisks in
     it, so they can be taken off (`printed`).

  The entries are the shown values, in every layout that shows them (`entries_body`), and nothing else is
  in a body but the sum (`sumPart_body`).
-/
import DiceNotation.Proofs.Field.Layout
import DiceNotation.Proofs.Text.Gaps

namespace DiceNotation

open Text

variable {format : Format}

/-! ## An entry -/

/-- A text between two pairs of asterisks. -/
def bold (s : Text) : Text :=
  ['*', '*'] ++ s ++ ['*', '*']

/-- The text of an entry without the asterisks in it. -/
def printed (entry : Text) : Text :=
  entry.filter (· != '*')

theorem bold_ne (s : Text) : bold s ≠ s := by
  intro h
  have hlen := congrArg List.length h
  simp only [bold, List.length_append, List.length_cons, List.length_nil] at hlen
  omega

theorem printed_of_freeOf {s : Text} (h : s.FreeOf (· == '*')) : printed s = s := by
  apply List.filter_eq_self.mpr
  intro c hc
  have hstar : (c == '*') = false := h c hc
  rw [bne, hstar, Bool.not_false]

theorem printed_bold {s : Text} (h : s.FreeOf (· == '*')) : printed (bold s) = s := by
  have hself := printed_of_freeOf h
  unfold printed bold at *
  rw [List.filter_append, List.filter_append, hself]
  exact List.append_nil s

theorem valueText_some (threshold : Threshold) (value : Binary64) :
    valueText (some threshold) value
      = if threshold.passes (settle value) then bold (numberText value) else numberText value := by
  unfold valueText
  simp only [numberText_settle]
  rfl

theorem printed_valueText (threshold : Threshold) (value : Binary64) :
    printed (valueText (some threshold) value) = numberText value := by
  have hfree : (numberText value).FreeOf (· == '*') := freeOf_numberText (by decide) value
  rw [valueText_some]
  split
  · exact printed_bold hfree
  · exact printed_of_freeOf hfree

/-! ## The entries of a body -/

/-- What stands in front of the sum, or all of a body without one. -/
def listPart (body : Text) : Text :=
  Text.trimEnd (body.upTo (· == '('))

/-- The sum with its brackets, or nothing. -/
def sumPart (body : Text) : Text :=
  body.onward (· == '(')

/-- The entries of a body that shows a list: what stands between the commas and the line ends in front
    of the sum. -/
def entries (body : Text) : List Text :=
  if body = [] then []
  else (split (· == '\n') (listPart body)).flatMap (splitOn [',', ' '])

/-- A text that does not end in a blank. -/
def EndsFirm (s : Text) : Prop :=
  s ≠ [] ∧ ∀ c ∈ s.getLast?, isBlank c = false

theorem endsFirm_of_freeOf {s : Text} (hne : s ≠ []) (h : s.FreeOf isBlank) : EndsFirm s :=
  ⟨hne, fun c hc => h c (List.mem_of_getLast? hc)⟩

theorem EndsFirm.append_left (front : Text) {s : Text} (h : EndsFirm s) : EndsFirm (front ++ s) := by
  have hlast := List.getLast?_eq_some_getLast h.1
  refine ⟨List.append_ne_nil_of_right_ne_nil front h.1, fun c hc => h.2 c ?_⟩
  rwa [List.getLast?_append, hlast, Option.some_or, ← hlast] at hc

/-- Joined texts end as the last of them does. -/
theorem EndsFirm.intercalate (separator : Text) {pieces : List Text} (hne : pieces ≠ [])
    (h : ∀ s ∈ pieces, EndsFirm s) : EndsFirm (List.intercalate separator pieces) := by
  match pieces with
  | [] => exact absurd rfl hne
  | [s] =>
    rw [List.intercalate_singleton]
    exact h s List.mem_cons_self
  | s :: t :: pieces =>
    rw [List.intercalate_cons_cons]
    apply EndsFirm.append_left
    exact EndsFirm.intercalate separator (List.cons_ne_nil _ _)
      fun u hu => h u (List.mem_cons_of_mem _ hu)

theorem EndsFirm.trimEnd_eq {s : Text} (h : EndsFirm s) : Text.trimEnd s = s :=
  dropEnd_eq_self_iff.mpr h.2

theorem listPart_of_freeOf {body : Text} (hfree : body.FreeOf (· == '(')) (hfirm : EndsFirm body) :
    listPart body = body := by
  rw [listPart, upTo_of_freeOf hfree, hfirm.trimEnd_eq]

/-- The blank in front of the bracket goes, and the list stays. -/
theorem listPart_append_sum {list sum : Text} (hfree : list.FreeOf (· == '('))
    (hfirm : EndsFirm list) : listPart (list ++ ' ' :: '(' :: sum) = list := by
  have hfront : (list ++ [' ']).FreeOf (· == '(') := freeOf_append.mpr ⟨hfree, by decide⟩
  have hcut : upTo (· == '(') (list ++ [' '] ++ '(' :: sum) = list ++ [' '] :=
    upTo_append_cons hfront rfl
  have hblank : dropEnd isBlank [' '] = [] := by decide
  rw [listPart, show list ++ ' ' :: '(' :: sum = list ++ [' '] ++ '(' :: sum by simp, hcut, trimEnd,
    dropEnd_append_of_eq_nil hblank]
  exact hfirm.trimEnd_eq

section Shown

variable (threshold : Option Threshold) (values : List Binary64)

theorem valueText_ne_nil (value : Binary64) : valueText threshold value ≠ [] := by
  have hnumber : numberText value ≠ [] := by
    rcases numberText_cases value with ⟨i, -, -, htext⟩ | ⟨-, htext⟩
    · rw [htext]
      exact Numeral.ofInt_ne_nil i
    · rw [htext]
      exact value.text_ne_nil
  cases threshold with
  | none => rwa [valueText_none]
  | some threshold =>
    rw [valueText_some]
    split
    · exact List.cons_ne_nil _ _
    · exact hnumber

theorem endsFirm_shown : ∀ s ∈ values.map (valueText threshold), EndsFirm s := by
  intro s hs
  obtain ⟨value, -, rfl⟩ := List.mem_map.mp hs
  exact endsFirm_of_freeOf (valueText_ne_nil threshold value) (freeOf_valueText (by decide) _ _)

variable {values}

/-- A row of shown values is a list of its own: it ends firmly, has no bracket and is one line. -/
theorem row_shown (hne : values ≠ []) :
    EndsFirm (rowText (values.map (valueText threshold)))
      ∧ (rowText (values.map (valueText threshold))).FreeOf (· == '(')
      ∧ (rowText (values.map (valueText threshold))).FreeOf (· == '\n') := by
  have hsome : values.map (valueText threshold) ≠ [] := by simpa using hne
  refine ⟨EndsFirm.intercalate _ hsome (endsFirm_shown threshold values), ?_, ?_⟩
  · exact freeOf_intercalate (by decide) (freeOf_shown (by decide) threshold values)
  · exact freeOf_intercalate (by decide) (freeOf_shown (by decide) threshold values)

theorem entries_of_listPart {body : Text} (hbody : body ≠ [])
    (h : (split (· == '\n') (listPart body)).flatMap (splitOn [',', ' '])
      = values.map (valueText threshold)) : entries body = values.map (valueText threshold) := by
  rw [entries, if_neg hbody, h]

theorem entries_row {body : Text} (hne : values ≠ []) (hbody : body ≠ [])
    (hlist : listPart body = rowText (values.map (valueText threshold))) :
    entries body = values.map (valueText threshold) := by
  have hsome : values.map (valueText threshold) ≠ [] := by simpa using hne
  apply entries_of_listPart threshold hbody
  rw [hlist, split_of_freeOf (row_shown threshold hne).2.2, List.flatMap_singleton]
  exact splitOn_rowText hsome (freeOf_shown (by decide) threshold values)

/-- The lines of the layout with rows: there are some, and each is a list of its own. -/
theorem lines_shown (size : Nat) (hne : values ≠ []) :
    (rows size (values.map (valueText threshold))).map rowText ≠ []
      ∧ (∀ line ∈ (rows size (values.map (valueText threshold))).map rowText, EndsFirm line)
      ∧ ∀ p, FreeOf p [',', ' '] → FreeOf p ('*' :: glyphs) →
        ∀ line ∈ (rows size (values.map (valueText threshold))).map rowText, FreeOf p line := by
  have hsome : values.map (valueText threshold) ≠ [] := by simpa using hne
  refine ⟨by simpa using rows_ne_nil size hsome, fun line hline => ?_, fun p hsep hp line hline => ?_⟩
  · obtain ⟨row, hrow, rfl⟩ := List.mem_map.mp hline
    refine EndsFirm.intercalate _ (ne_nil_of_mem_rows hrow) fun s hs => ?_
    apply endsFirm_shown threshold values
    rw [← flatten_rows size (values.map (valueText threshold))]
    exact List.mem_flatten_of_mem hrow hs
  · obtain ⟨row, hrow, rfl⟩ := List.mem_map.mp hline
    exact freeOf_rows size hsep (freeOf_shown hp threshold values) row hrow

end Shown

/-- **The entries of a body are the shown values**, in every layout that shows them. -/
theorem entries_body (hlayout : format.layout ≠ .sumOnly) (values : List Binary64) :
    entries (format.body values) = values.map (valueText format.threshold) := by
  obtain ⟨layout, size, threshold⟩ := format
  cases values with
  | nil =>
    -- no entries, and nothing is shown of them
    cases layout with
    | sumOnly => exact absurd rfl hlayout
    | listOnly => rfl
    | valuesAndSum => rfl
    | rows =>
      show entries (List.intercalate ['\n'] ((rows size []).map rowText)) = []
      rw [rows_nil]
      rfl
  | cons first others =>
    have hne : first :: others ≠ [] := List.cons_ne_nil _ _
    obtain ⟨hfirm, hbracket, -⟩ := row_shown threshold hne
    cases layout with
    | sumOnly => exact absurd rfl hlayout
    | listOnly => exact entries_row threshold hne hfirm.1 (listPart_of_freeOf hbracket hfirm)
    | valuesAndSum =>
      unfold Format.body
      simp only
      split
      · -- the sum stands behind the list, a blank apart
        rw [List.append_assoc, List.append_assoc]
        apply entries_row threshold hne
        · exact List.append_ne_nil_of_left_ne_nil hfirm.1 _
        · exact listPart_append_sum hbracket hfirm
      · exact entries_row threshold hne hfirm.1 (listPart_of_freeOf hbracket hfirm)
    | rows =>
      obtain ⟨hlines, hfirms, hfree⟩ := lines_shown threshold size hne
      have hwhole := EndsFirm.intercalate ['\n'] hlines hfirms
      apply entries_of_listPart threshold hwhole.1
      show (split (· == '\n') (listPart (List.intercalate ['\n'] _))).flatMap _ = _
      rw [listPart_of_freeOf (freeOf_intercalate (by decide) (hfree _ (by decide) (by decide))) hwhole,
        split_lines hlines (hfree _ (by decide) (by decide)), List.flatMap_def]
      exact (holdRows_rows size (freeOf_shown (by decide) threshold _)).1

/-- **The sum is never marked.**  Behind the entries stands the sum or nothing. -/
theorem sumPart_body (hlayout : format.layout ≠ .sumOnly) (values : List Binary64) :
    (sumPart (format.body values)).FreeOf (· == '*')
      ∧ sumPart (format.body values)
        = if format.layout = .valuesAndSum ∧ 1 < values.length
          then "(sum: ".toList ++ sumText values ++ [')'] else [] := by
  have hsum : (sumText values).FreeOf (· == '*') := freeOf_numberText (by decide) _
  have hnone : ∀ body : Text, body.FreeOf (· == '(') → (sumPart body).FreeOf (· == '*') ∧
      sumPart body = [] := by
    intro body hfree
    rw [sumPart, onward_of_freeOf hfree]
    exact ⟨freeOf_nil, rfl⟩
  obtain ⟨layout, size, threshold⟩ := format
  have hrow : (rowText (values.map (valueText threshold))).FreeOf (· == '(') :=
    freeOf_intercalate (by decide) (freeOf_shown (by decide) threshold values)
  cases layout with
  | sumOnly => exact absurd rfl hlayout
  | listOnly => exact hnone _ hrow
  | rows =>
    refine hnone _ (freeOf_intercalate (by decide) fun line hline => ?_)
    obtain ⟨row, hmem, rfl⟩ := List.mem_map.mp hline
    exact freeOf_rows size (by decide) (freeOf_shown (by decide) threshold values) row hmem
  | valuesAndSum =>
    unfold Format.body
    simp only [true_and]
    split
    · have hfront : (rowText (values.map (valueText threshold)) ++ [' ']).FreeOf (· == '(') :=
        freeOf_append.mpr ⟨hrow, by decide⟩
      have htext : rowText (values.map (valueText threshold)) ++ " (sum: ".toList ++ sumText values
          ++ [')'] = rowText (values.map (valueText threshold)) ++ [' ']
            ++ '(' :: ("sum: ".toList ++ sumText values ++ [')']) := by
        simp
      rw [htext, sumPart, onward_append_cons hfront rfl]
      have hbrackets : FreeOf (· == '*') ("sum: ".toList ++ sumText values ++ [')']) :=
        freeOf_append.mpr ⟨freeOf_append.mpr ⟨by decide, hsum⟩, by decide⟩
      exact ⟨freeOf_cons.mpr ⟨by decide, hbrackets⟩, rfl⟩
    · exact hnone _ hrow

end DiceNotation
