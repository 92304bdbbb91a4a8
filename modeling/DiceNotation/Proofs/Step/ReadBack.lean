/-
  Steps read back.

  A step is its operator and its operand, and a plain operand is written in figures.  No figure is
  an operator, an `i` or a blank.  So the steps that are written one after another are cut apart at
  their operators again (`cut_flatMap_text`), each operand is found as it was written, and nothing
  stands in front of the first one.

  1. `readAll_text` reads the steps for every die, which are cut first and scanned piece by piece.
  2. `scan_text` reads the steps of a group, which are scanned in one pass.
-/
import DiceNotation.Proofs.Step.Scan

namespace DiceNotation

open Text Binary64

namespace Step

variable {rule : Dangling} {operator : Operator} {steps : List Step} {p : Char → Bool}

/-! ## What a text of steps is free of -/

theorem operand_freeOf {x : Binary64} (h : x.IsPlain) (hp : FreeOf p Numeral.figures) :
    x.text.FreeOf p :=
  Numeral.freeOf_of_figures (text_subset_figures h.1 h.2) hp

/-- Steps have operators and figures in them, and nothing else. -/
theorem flatMap_text_freeOf (hsteps : ∀ step ∈ steps, step.operand.IsPlain)
    (hsigil : ∀ o : Operator, p o.sigil = false) (hp : FreeOf p Numeral.figures) :
    FreeOf p (steps.flatMap text) := by
  intro c hc
  obtain ⟨step, hstep, hc⟩ := List.mem_flatMap.mp hc
  rcases List.mem_cons.mp hc with rfl | hc
  · exact hsigil step.operator
  · exact operand_freeOf (hsteps step hstep) hp c hc

/-- Where there are steps at all, an operator stands first. -/
theorem flatMap_text_opensWith (steps : List Step) :
    OpensWith Operator.isSigil (steps.flatMap text) := by
  cases steps with
  | nil => exact opensWith_nil
  | cons step steps =>
    apply opensWith_cons.mpr
    cases step.operator <;> rfl

/-! ## Reading what was written -/

theorem close_text (rule : Dangling) (operator : Operator) (atStart : Bool) {x : Binary64}
    (h : x.IsPlain) : close rule operator atStart x.text = .ok [⟨operator, x⟩] := by
  have htrim : x.text.trim = x.text := trim_of_freeOf (operand_freeOf h (by decide))
  unfold close
  rw [htrim]
  split
  · rename_i hnil
    exact absurd hnil (text_ne_nil x)
  · rw [operand?_text h]

/-- **Steps are cut apart at their operators**, and nothing is in front of the first. -/
theorem cut_flatMap_text (hsteps : ∀ step ∈ steps, step.operand.IsPlain) :
    Text.cut Operator.ofSigil? (steps.flatMap text)
      = ([], steps.map fun step => (step.operator, step.operand.text)) := by
  have hmark : ∀ o : Operator, Operator.ofSigil? o.sigil = some o := fun o =>
    Operator.ofSigil?_eq_some_iff.mpr rfl
  have hpieces := cut_flatMap hmark (steps.map fun step => (step.operator, step.operand.text))
  rw [List.flatMap_map] at hpieces
  apply hpieces
  intro x hx
  obtain ⟨step, hstep, rfl⟩ := List.mem_map.mp hx
  exact operand_freeOf (hsteps step hstep) (by decide)

/-- Steps that were read one by one are put together. -/
theorem flatten_singletons (steps : List Step) : (steps.map fun step => [step]).flatten = steps := by
  rw [← List.flatMap_def, List.flatMap_singleton']

/-- **The steps for every die read back.** -/
theorem readAll_text (hsteps : ∀ step ∈ steps, step.operand.IsPlain) :
    readAll (steps.flatMap text) = .ok steps := by
  have hscan : ∀ step ∈ steps, scan .ignored step.operator step.operand.text = .ok [step] := by
    intro step hstep
    have hplain := hsteps step hstep
    have hwhole : step.operand.text.upTo (· == targetSigil) = step.operand.text :=
      upTo_of_freeOf (operand_freeOf hplain (by decide))
    have huncut : Text.cut Operator.ofSigil? step.operand.text = (step.operand.text, []) :=
      cut_of_freeOf (operand_freeOf hplain (by decide))
    rw [scan_eq_closeAll, hwhole, huncut, closeAll, close_text _ _ _ hplain]
    rfl
  have hpieces : (steps.map fun step => (step.operator, step.operand.text)).mapM
      (fun x => scan .ignored x.1 x.2) = .ok (steps.map fun step => [step]) :=
    mapM_map_eq_ok hscan
  unfold readAll
  rw [cut_flatMap_text hsteps]
  simp only [List.mapM_cons, hpieces]
  show Except.ok ([] ++ (steps.map fun step => [step]).flatten) = _
  rw [List.nil_append, flatten_singletons]

/-- **The steps of a group read back**, and so does a group without any. -/
theorem scan_text (rule : Dangling) (leading : Operator)
    (hsteps : ∀ step ∈ steps, step.operand.IsPlain) :
    scan rule leading (steps.flatMap text) = .ok steps := by
  have hwhole : Text.upTo (· == targetSigil) (steps.flatMap text) = steps.flatMap text :=
    upTo_of_freeOf (flatMap_text_freeOf hsteps (fun o => by cases o <;> rfl) (by decide))
  have hclose : ∀ step ∈ steps,
      close rule step.operator false step.operand.text = .ok [step] :=
    fun step hstep => close_text rule step.operator false (hsteps step hstep)
  have hpieces : (steps.map fun step => (step.operator, step.operand.text)).mapM
      (fun x => close rule x.1 false x.2) = .ok (steps.map fun step => [step]) :=
    mapM_map_eq_ok hclose
  -- the start of the text is closed before any operator has asked for an operand
  have hstart : close rule leading true [] = .ok [] := by
    cases rule <;> rfl
  rw [scan_eq_closeAll, hwhole, cut_flatMap_text hsteps, closeAll, hstart, hpieces]
  show Except.ok ([] ++ (steps.map fun step => [step]).flatten) = _
  rw [List.nil_append, flatten_singletons]

end Step

end DiceNotation
