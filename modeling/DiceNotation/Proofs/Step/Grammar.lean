/-
  A run of steps as a grammar.

  What a text MEANS as a run of steps (`Step.Means`) is said in two rules, with no pass over the
  characters and no operator in hand:

  1. The text is cut at all its operators into a first run and a run behind each operator.
  2. Each run on its own means a step, nothing, or a fault (`RunMeans`): an operand is a step of the
     operator in front of it, or of `leading` in front of the first operator; a blank run is nothing
     in front of the first operator, and what the rule for dangling operators says behind one; and
     everything else is at fault.

  The text means all these steps in order, or the first fault.  A scan reads what the text means up to
  its first `i` (`scan_iff_means`), and a fault is that of one run (`exists_run_of_means`).
-/
import DiceNotation.Proofs.Step.Scan
import DiceNotation.Proofs.Text.Pieces

namespace DiceNotation.Step

open Text

variable {rule : Dangling} {leading : Operator} {operator : Option Operator} {piece s : Text}
  {result : Except Fault (List Step)}

/-! ## One run -/

/-- What a run means behind its operator, or in front of the first one. -/
inductive RunMeans (rule : Dangling) (leading : Operator) :
    Option Operator × Text → Except Fault (List Step) → Prop
  | step {operator : Option Operator} {piece : Text} {value : Binary64}
      (h : operand? piece.trim = some value) :
      RunMeans rule leading (operator, piece) (.ok [⟨operator.getD leading, value⟩])
  | malformed {operator : Option Operator} {piece : Text} (hsome : piece.isAllBlank = false)
      (h : operand? piece.trim = none) :
      RunMeans rule leading (operator, piece) (.error (.badNumber piece.trim))
  | absent {piece : Text} (hblank : piece.isAllBlank = true) :
      RunMeans rule leading (none, piece) (.ok [])
  | ignored {operator : Operator} {piece : Text} (hrule : rule = .ignored)
      (hblank : piece.isAllBlank = true) : RunMeans rule leading (some operator, piece) (.ok [])
  | refused {operator : Operator} {piece : Text} (hrule : rule = .refused)
      (hblank : piece.isAllBlank = true) :
      RunMeans rule leading (some operator, piece) (.error (.badNumber (operator.sigil :: piece)))

theorem close_of_isAllBlank {operator : Operator} {atStart : Bool}
    (hblank : piece.isAllBlank = true) : close rule operator atStart piece
      = if rule = .refused ∧ !atStart then .error (.badNumber (operator.sigil :: piece))
        else .ok [] := by
  unfold close
  rw [trim_eq_nil_iff.mpr hblank]

theorem close_of_not_isAllBlank {operator : Operator} {atStart : Bool}
    (hsome : piece.isAllBlank = false) : close rule operator atStart piece
      = match operand? piece.trim with
        | some value => .ok [⟨operator, value⟩]
        | none => .error (.badNumber piece.trim) := by
  unfold close
  split
  · exact absurd ‹piece.trim = []› (trim_ne_nil hsome)
  · rfl

/-- There is no operand in a blank run. -/
theorem isAllBlank_of_operand? {value : Binary64} (h : operand? piece.trim = some value) :
    piece.isAllBlank = false := by
  apply Bool.eq_false_iff.mpr
  intro hblank
  rw [trim_eq_nil_iff.mpr hblank] at h
  exact nomatch h

/-- **Closing a run gives what it means.** -/
theorem close_iff_runMeans :
    close rule (operator.getD leading) operator.isNone piece = result ↔
      RunMeans rule leading (operator, piece) result := by
  constructor
  · rintro rfl
    cases hblank : piece.isAllBlank with
    | true =>
      rw [close_of_isAllBlank hblank]
      cases operator with
      | none =>
        -- no operator asked for an operand
        rw [if_neg fun hasked => Bool.false_ne_true hasked.2]
        exact .absent hblank
      | some o =>
        cases rule with
        | ignored => exact .ignored rfl hblank
        | refused => exact .refused rfl hblank
    | false =>
      rw [close_of_not_isAllBlank hblank]
      cases hread : operand? piece.trim with
      | some value => exact .step hread
      | none => exact .malformed hblank hread
  · intro h
    cases h with
    | step h => rw [close_of_not_isAllBlank (isAllBlank_of_operand? h), h]
    | malformed hsome h => rw [close_of_not_isAllBlank hsome, h]
    | absent hblank =>
      rw [close_of_isAllBlank hblank]
      exact if_neg fun hasked => Bool.false_ne_true hasked.2
    | ignored hrule hblank =>
      rw [close_of_isAllBlank hblank, hrule]
      rfl
    | refused hrule hblank =>
      rw [close_of_isAllBlank hblank, hrule]
      rfl

/-! ## The whole text -/

/-- What a text means as a run of steps. -/
inductive Means (rule : Dangling) (leading : Operator) (s : Text) :
    Except Fault (List Step) → Prop
  | inOrder {first : Text} {runs : List (Operator × Text)} {found : Except Fault (List (List Step))}
      (hruns : Runs Operator.ofSigil? Operator.sigil s first runs)
      (hread : InOrder (RunMeans rule leading)
        ((none, first) :: runs.map fun x => (some x.1, x.2)) found) :
      Means rule leading s (found.map List.flatten)

/-- Closing all runs is closing them in order, the first as the one without an operator. -/
theorem closeAll_eq_mapM (rule : Dangling) (leading : Operator) (first : Text)
    (runs : List (Operator × Text)) :
    closeAll rule leading true (first, runs)
      = (((none, first) :: runs.map fun x => (some x.1, x.2)).mapM fun x =>
          close rule (x.1.getD leading) x.1.isNone x.2).map List.flatten := by
  rw [flatten_mapM_cons, List.mapM_map]
  rfl

/-- **A scan reads what the text means**, up to its first `i`. -/
theorem scan_iff_means :
    scan rule leading s = result ↔ Means rule leading (s.upTo (· == targetSigil)) result := by
  have hread : ∀ (runs : List (Option Operator × Text)) (found : Except Fault (List (List Step))),
      InOrder (RunMeans rule leading) runs found ↔
        runs.mapM (fun x => close rule (x.1.getD leading) x.1.isNone x.2) = found :=
    fun _ found => inOrder_iff (fun ⟨_, _⟩ _ _ => close_iff_runMeans.symm) found
  rw [scan_eq_closeAll]
  constructor
  · rintro rfl
    rw [closeAll_eq_mapM]
    exact .inOrder (runs_cut (fun _ _ => Operator.ofSigil?_eq_some_iff) _) ((hread _ _).mpr rfl)
  · intro h
    cases h with
    | inOrder hruns hfound =>
      rw [(runs_iff fun _ _ => Operator.ofSigil?_eq_some_iff).mp hruns, closeAll_eq_mapM,
        (hread _ _).mp hfound]

theorem scan_iff_means_of_freeOf (hfree : s.FreeOf (· == targetSigil)) :
    scan rule leading s = result ↔ Means rule leading s result := by
  rw [scan_iff_means, upTo_of_freeOf hfree]

/-- **A fault is that of one run**, and the run is a part of the text behind its operator. -/
theorem exists_run_of_means {fault : Fault} (h : Means rule leading s (.error fault)) :
    ∃ operator piece, FreeOf Operator.isSigil piece ∧
      (operator.map Operator.sigil).toList ++ piece <:+: s ∧
      RunMeans rule leading (operator, piece) (.error fault) := by
  generalize hr : (Except.error fault : Except Fault (List Step)) = result at h
  cases h with
  | @inOrder first runs found hruns hread =>
    cases found with
    | ok steps => cases hr
    | error other =>
      obtain rfl : fault = other := Except.error.inj hr
      obtain ⟨x, hx, hfault⟩ := hread.exists_of_error rfl
      rw [hruns.whole]
      rcases List.mem_cons.mp hx with rfl | hx
      · exact ⟨none, first, hruns.leading_free, (List.prefix_append first _).isInfix, hfault⟩
      · obtain ⟨run, hrun, rfl⟩ := List.mem_map.mp hx
        exact ⟨some run.1, run.2, hruns.runs_free run hrun, isInfix_joinRuns hrun, hfault⟩

end DiceNotation.Step
