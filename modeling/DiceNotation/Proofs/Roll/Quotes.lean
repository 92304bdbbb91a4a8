/-
  What a fault quotes.

  A fault holds the text that broke a rule, and that text has been cut out, trimmed and cut again before
  anybody looked at it.  Whatever was done to it, it stands in the expression as it is quoted, and an
  argument stands behind the directive that asked for it (`Fault.QuotedFrom`).

  1. What is quoted from a part of a text is quoted from the text (`QuotedFrom.of_isInfix`).  So every
     reader is looked at on its own, with the part that it is given.
  2. Where a list of items is read, the fault is that of one of them (`InOrder.exists_of_error`), and the
     items are parts of the list.
  3. An operator that asks for an operand in vain is quoted with its sigil, so its run is looked at with
     the sigil in front (`Step.quoted_of_runMeans`).

  No other fault comes of reading: the tokenizers that the reader could use refuse no text, and division
  is not tried (`Roll.read_quotes`).
-/
import DiceNotation.Proofs.Dice.Clause
import DiceNotation.Proofs.Group.Grammar
import DiceNotation.Proofs.Roll.Guarded

namespace DiceNotation

open Text

variable {s part piece : Text} {fault : Fault}

/-- The fault is one that reading can have, and what it quotes stands in the text. -/
inductive Fault.QuotedFrom (s : Text) : Fault → Prop
  | tooManyDice : QuotedFrom s .tooManyDice
  | noDice : QuotedFrom s .noDice
  | badNumber {text : Text} (h : text <:+: s) : QuotedFrom s (.badNumber text)
  | badTarget {text : Text} (h : text <:+: s) : QuotedFrom s (.badTarget text)
  | missingLimit {directive : Directive} (hasks : directive = .greater ∨ directive = .less)
      (h : directive.sigil ∈ s) : QuotedFrom s (.missingLimit directive)
  | badArgument {directive : Directive} (before blanks argument after : Text)
      (hasks : directive = .list ∨ directive = .greater ∨ directive = .less)
      (hwhole : s = before ++ directive.sigil :: (blanks ++ (argument ++ after)))
      (hblank : blanks.isAllBlank = true) (hsome : argument ≠ [])
      (hfirst : ∀ c ∈ argument.head?, isBlank c = false)
      (hlast : ∀ c ∈ argument.getLast?, isBlank c = false) :
      QuotedFrom s (.badArgument directive argument)

/-- **What is quoted from a part is quoted from the whole.** -/
theorem Fault.QuotedFrom.of_isInfix (h : fault.QuotedFrom part) (hpart : part <:+: s) :
    fault.QuotedFrom s := by
  cases h with
  | tooManyDice => exact .tooManyDice
  | noDice => exact .noDice
  | badNumber h => exact .badNumber (h.trans hpart)
  | badTarget h => exact .badTarget (h.trans hpart)
  | missingLimit hasks h => exact .missingLimit hasks (hpart.subset h)
  | badArgument before blanks argument after hasks hwhole hblank hsome hfirst hlast =>
    obtain ⟨front, back, rfl⟩ := hpart
    refine .badArgument (front ++ before) blanks _ (after ++ back) hasks ?_ hblank hsome hfirst hlast
    rw [hwhole]
    simp only [List.append_assoc, List.cons_append]

/-! ## The format -/

namespace Format

/-- A trimmed argument stands behind its directive, with blanks in between. -/
theorem quoted_argument {directive : Directive}
    (hasks : directive = .list ∨ directive = .greater ∨ directive = .less) (hsome : s.trim ≠ []) :
    (Fault.badArgument directive s.trim).QuotedFrom (directive.sigil :: s) := by
  obtain ⟨blanks, after, hwhole, hblank, -⟩ := exists_trim s
  exact .badArgument [] blanks _ after hasks (congrArg _ hwhole) hblank hsome (head?_trim s)
    (getLast?_dropEnd isBlank _)

theorem quoted_of_withThreshold {format : Format} {directive : Directive} {side : Side}
    (hasks : directive = .greater ∨ directive = .less)
    (h : format.withThreshold directive side s.trim = .error fault) :
    fault.QuotedFrom (directive.sigil :: s) := by
  unfold withThreshold at h
  split at h
  · obtain rfl := Except.error.inj h
    exact .missingLimit hasks List.mem_cons_self
  · rename_i hsome
    split at h
    · cases h
    · obtain rfl := Except.error.inj h
      exact quoted_argument (Or.inr hasks) hsome

/-- **A directive is at fault with the argument behind it**, or with none. -/
theorem quoted_of_withDirective {format : Format} {directive : Directive}
    (h : format.withDirective directive s.trim = .error fault) :
    fault.QuotedFrom (directive.sigil :: s) := by
  cases directive with
  | sum => cases h
  | greater => exact quoted_of_withThreshold (Or.inl rfl) h
  | less => exact quoted_of_withThreshold (Or.inr rfl) h
  | list =>
    unfold withDirective at h
    simp only at h
    split at h
    · cases h
    · rename_i hsome
      split at h
      · cases h
      · obtain rfl := Except.error.inj h
        exact quoted_argument (Or.inl rfl) hsome

theorem quoted_of_read (h : read s = .error fault) : fault.QuotedFrom s := by
  unfold read at h
  rcases bind_eq_error.mp h with hfold | ⟨format, -, hread⟩
  · obtain ⟨⟨directive, argument⟩, hmem, format, hfault⟩ := exists_of_foldlM_eq_error hfold
    have hruns := runs_cut (fun _ _ => Directive.ofSigil?_eq_some_iff) s
    rw [hruns.whole]
    exact (quoted_of_withDirective hfault).of_isInfix (isInfix_joinRuns hmem)
  · cases hread

end Format

/-! ## The dice clause -/

theorem Dice.quoted_of_read (h : read s = .error fault) : fault.QuotedFrom s := by
  cases (read_iff_means s _).mp h with
  | tooMany _ _ _ => exact .tooManyDice
  | noDice _ _ _ => exact .noDice
  | @malformed left right n _ _ _ _ =>
    have hright : right <:+: left ++ 'd' :: right :=
      ((List.suffix_cons 'd' right).trans (List.suffix_append left _)).isInfix
    exact .badNumber ((trim_isInfix right).trans hright)

/-! ## Steps -/

namespace Step

variable {rule : Dangling} {leading : Operator}

/-- A run is at fault with its text, and with its operator if that is all there is. -/
theorem quoted_of_runMeans {operator : Option Operator}
    (h : RunMeans rule leading (operator, piece) (.error fault)) :
    fault.QuotedFrom ((operator.map Operator.sigil).toList ++ piece) := by
  cases h with
  | malformed _ _ =>
    exact .badNumber ((trim_isInfix piece).trans (List.suffix_append _ piece).isInfix)
  | refused _ _ => exact .badNumber (List.infix_refl _)

theorem quoted_of_means (h : Means rule leading s (.error fault)) : fault.QuotedFrom s := by
  obtain ⟨operator, piece, -, hpart, hfault⟩ := exists_run_of_means h
  exact (quoted_of_runMeans hfault).of_isInfix hpart

theorem quoted_of_scan (h : scan rule leading s = .error fault) : fault.QuotedFrom s :=
  (quoted_of_means (scan_iff_means.mp h)).of_isInfix (List.takeWhile_prefix _).isInfix

theorem quoted_of_readAll (h : readAll s = .error fault) : fault.QuotedFrom s := by
  unfold readAll at h
  rcases bind_eq_error.mp h with hpieces | ⟨steps, -, hread⟩
  · obtain ⟨⟨operator, piece⟩, hmem, hscan⟩ := exists_of_mapM_eq_error hpieces
    have hruns := runs_cut (fun _ _ => Operator.ofSigil?_eq_some_iff) s
    have hquoted : fault.QuotedFrom piece := quoted_of_scan hscan
    rw [hruns.whole]
    rcases List.mem_cons.mp hmem with heq | hmem
    · obtain ⟨-, rfl⟩ := Prod.mk.inj heq
      exact hquoted.of_isInfix (List.prefix_append _ _).isInfix
    · exact hquoted.of_isInfix ((List.suffix_cons _ _).isInfix.trans (isInfix_joinRuns hmem))
  · cases hread

end Step

/-! ## Groups -/

namespace Group

theorem quoted_of_readTargets (h : readTargets s = .error fault) : fault.QuotedFrom s := by
  obtain ⟨entry, hentry, -, -, rfl⟩ := exists_entry_of_readTargets h
  exact .badTarget ((trim_isInfix entry).trans hentry)

theorem quoted_of_readAll (h : readAll s = .error fault) : fault.QuotedFrom s := by
  obtain ⟨piece, targets, steps, hpiece, -, hparts, hfault | hfault⟩ := exists_parts_of_readAll h
  · exact (quoted_of_readTargets hfault).of_isInfix (hparts.isInfix.1.trans hpiece)
  · exact (Step.quoted_of_scan hfault).of_isInfix (hparts.isInfix.2.trans hpiece)

end Group

/-! ## The whole expression -/

namespace Roll

/-- The three parts in front of the format are parts of it. -/
theorem parts_isInfix (core : Text) :
    (parts core).1 <:+: core ∧ (parts core).2.1 <:+: core ∧ (parts core).2.2 <:+: core := by
  have hrest : core.onward endsDice <:+: core := (List.dropWhile_suffix _).isInfix
  exact ⟨(List.takeWhile_prefix _).isInfix, (List.takeWhile_prefix _).isInfix.trans hrest,
    (List.dropWhile_suffix _).isInfix.trans hrest⟩

theorem quoted_of_read (h : read s = .error fault) : fault.QuotedFrom s := by
  unfold read at h
  rcases bind_eq_error.mp h with hformat | ⟨⟨core, format⟩, hformat, h⟩
  · exact Format.quoted_of_read hformat
  · -- the other parts are those of what stands in front of the format
    have hcore : core <:+: s := by
      rw [Format.core_eq_upTo hformat]
      exact (List.takeWhile_prefix _).isInfix
    obtain ⟨hdice, hsteps, hgroups⟩ := parts_isInfix core
    rcases bind_eq_error.mp h with hfault | ⟨dice, -, h⟩
    · exact (Dice.quoted_of_read hfault).of_isInfix (hdice.trans hcore)
    · rcases bind_eq_error.mp h with hfault | ⟨steps, -, h⟩
      · exact (Step.quoted_of_readAll hfault).of_isInfix (hsteps.trans hcore)
      · rcases bind_eq_error.mp h with hfault | ⟨groups, -, h⟩
        · exact (Group.quoted_of_readAll hfault).of_isInfix (hgroups.trans hcore)
        · cases h

/-- **Every fault of reading quotes the expression**, and no tokenizer has a part in it.

    1. Reading with tokenizers is the same, whatever faults are kept ready for texts that they refuse.
    2. The fault of an expression is one that reading can have: it is no division by zero, and what it
       quotes stands in the expression, an argument behind its directive with blanks in between. -/
theorem read_quotes :
    (∀ (refused : Place → Text → Fault) (s : Text), readOr refused s = read s) ∧
    ∀ (s : Text) (fault : Fault), read s = .error fault → fault.QuotedFrom s :=
  ⟨readOr_eq_read, fun _ _ => quoted_of_read⟩

/-- An argument that is no number, with more than a space in front of it, and a target that is none; the
    fault that is kept ready is not seen. -/
theorem read_quotes_argument :
    (read "3d6 l \u00a0five\t>3".toList = .error (.badArgument .list "five".toList) ∧
      (Fault.badArgument .list "five".toList).QuotedFrom "3d6 l \u00a0five\t>3".toList) ∧
    (read "3d6+1i2, x :*2".toList = .error (.badTarget "x".toList) ∧
      (Fault.badTarget "x".toList).QuotedFrom "3d6+1i2, x :*2".toList) ∧
    readOr (fun _ _ => .divisionByZero) "3d6+1i2, x :*2".toList = .error (.badTarget "x".toList) := by
  obtain ⟨hsame, hquoted⟩ := read_quotes
  have hargument : read "3d6 l \u00a0five\t>3".toList
      = .error (.badArgument .list "five".toList) := by
    decide +kernel
  have htarget : read "3d6+1i2, x :*2".toList = .error (.badTarget "x".toList) := by
    decide +kernel
  exact ⟨⟨hargument, hquoted _ _ hargument⟩, ⟨htarget, hquoted _ _ htarget⟩,
    (hsame _ _).trans htarget⟩

end Roll

end DiceNotation
