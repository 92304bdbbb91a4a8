/-
  Steps for every die are a group that targets everyone.

  There are two ways to change a row: `Step.applyAll` walks over all of it, and `Step.applyAt` walks over
  it with a count and asks at each position whether it is chosen.  Where every position is chosen the
  two do the same, and that is so for a whole run of steps as well.

  1. A sweep asks for the positions of the row and for no others (`Step.applyAt_congr`), so what else
     a group targets makes no difference.
  2. The row keeps its length from step to step, so a group that targets everyone at the start does
     so until the end.  That is the invariant which carries the run (`Update.run_congr`).
  3. The two runs agree in what they leave behind and in their fault, not in their result alone
     (`Group.run_applyAll_eq_apply`).  Hence the steps for every die can be written as one more group
     in front of the others (`Roll.regrouped`), and nothing of an evaluation shows it.
-/
import DiceNotation.Proofs.Evaluation.LeftBehind

namespace DiceNotation

variable {values : List Binary64}

/-! ## Sweeps and their runs -/

/-- A sweep asks for the positions of the row alone. -/
theorem Step.applyAt_congr (step : Step) {chosen chosen' : Nat → Bool} {position : Nat}
    (h : ∀ j < values.length, chosen (position + j) = chosen' (position + j)) :
    step.applyAt chosen position values = step.applyAt chosen' position values := by
  induction values generalizing position with
  | nil => rfl
  | cons value rest ih =>
    have hhere : chosen position = chosen' position := h 0 (Nat.zero_lt_succ _)
    have hrest : step.applyAt chosen (position + 1) rest
        = step.applyAt chosen' (position + 1) rest := by
      apply ih
      intro j hj
      rw [show position + 1 + j = position + (j + 1) by omega]
      exact h (j + 1) (Nat.succ_lt_succ hj)
    rw [applyAt, applyAt, hhere, hrest]

/-- **Changes that agree wherever a run can get make the same run.** -/
theorem Update.run_congr {α : Type} {change change' : α → List Binary64 → Update} {as : List α}
    {P : List Binary64 → Prop} (hsame : ∀ a values, P values → change a values = change' a values)
    (hkeep : ∀ a values, P values → P (change a values).values) (h : P values) :
    run change as values = run change' as values := by
  induction as generalizing values with
  | nil => rfl
  | cons a as ih =>
    have hnext := hkeep a values h
    rw [run, run, ← hsame a values h]
    cases hfault : (change a values).fault with
    | some e => rw [andThen_of_fault hfault, andThen_of_fault hfault]
    | none =>
      rw [eq_done_of_fault hfault, done_andThen, done_andThen]
      exact ih hnext

/-- **Steps for every die are a group that targets everyone**, in what they leave behind and in how
    they fail.  Other targets do no harm. -/
theorem Group.run_applyAll_eq_apply {targets : List Nat}
    (h : ∀ t, 1 ≤ t → t ≤ values.length → t ∈ targets) (steps : List Step) :
    Update.run Step.applyAll steps values = (⟨targets, steps⟩ : Group).apply values := by
  refine Update.run_congr (P := fun now => now.length = values.length) ?_ ?_ rfl
  · intro step now hlen
    rw [step.applyAll_eq_applyAt 1]
    apply Step.applyAt_congr
    intro j hj
    have htarget : 1 + j ∈ targets := h (1 + j) (by omega) (by omega)
    rw [List.contains_eq_mem, decide_eq_true htarget]
  · intro step now hlen
    rw [step.applyAll_eq_applyAt 1]
    exact (step.applyAt_keeps _ _ _).1.trans hlen

/-! ## Rolls -/

namespace Roll

/-- The roll with its steps for every die as a group for every die, in front of the others. -/
def regrouped (roll : Roll) : Roll :=
  { roll with
    steps := []
    groups := ⟨List.range' 1 roll.dice.count, roll.steps⟩ :: roll.groups }

/-- A row with a value for each die does not show where the steps stand. -/
theorem modify_regrouped (roll : Roll) (h : values.length = roll.dice.count) :
    roll.regrouped.modify values = roll.modify values := by
  have heveryone : ∀ t, 1 ≤ t → t ≤ values.length → t ∈ List.range' 1 roll.dice.count := by
    intro t hpos hle
    rw [List.mem_range'_1]
    omega
  calc roll.regrouped.modify values
      = ((⟨List.range' 1 roll.dice.count, roll.steps⟩ : Group).apply values).andThen
          (Update.run Group.apply roll.groups) := rfl
    _ = roll.modify values := by rw [modify, Group.run_applyAll_eq_apply heveryone]

/-- **Steps for every die are a group that targets everyone.**  On a row whose positions are all
    targeted the steps and the group leave the same values behind and fail in the same way; so a roll
    can have its steps for every die as a group in front of the others, and every evaluation of it
    comes to the same and leaves the same source. -/
theorem evaluate_everyone :
    (∀ (steps : List Step) (targets : List Nat) (values : List Binary64),
      (∀ t, 1 ≤ t → t ≤ values.length → t ∈ targets) →
      Update.run Step.applyAll steps values = (⟨targets, steps⟩ : Group).apply values) ∧
    ∀ (roll : Roll) (how : Fall) (source : WordSource),
      roll.regrouped.evaluate how source = roll.evaluate how source := by
  refine ⟨fun steps _ _ h => Group.run_applyAll_eq_apply h steps, fun roll how source => ?_⟩
  have hmodify := roll.modify_regrouped (Dice.length_fall roll.dice how source)
  unfold evaluate
  rw [show roll.regrouped.dice = roll.dice from rfl]
  simp only [hmodify]
  rfl

/-- A chain with a division by zero in its middle, and a group with targets beyond the row: both have
    added to each value, and neither has multiplied one. -/
theorem evaluate_everyone_midway :
    let steps : List Step := [⟨.add, 1⟩, ⟨.divide, 0⟩, ⟨.multiply, 2⟩]
    let group : Group := ⟨[1, 2, 3, 7], steps⟩
    (∀ t, 1 ≤ t → t ≤ [(4 : Binary64), 5].length → t ∈ group.targets) ∧
    Update.run Step.applyAll steps [4, 5] = ⟨[5, 6], some .divisionByZero⟩ ∧
    group.apply [4, 5] = ⟨[5, 6], some .divisionByZero⟩ := by
  intro steps group
  have htargets : ∀ t, 1 ≤ t → t ≤ [(4 : Binary64), 5].length → t ∈ group.targets := by
    intro t hpos hle
    have hle' : t ≤ 2 := hle
    obtain rfl | rfl : t = 1 ∨ t = 2 := by omega
    · decide
    · decide
  have hrun : Update.run Step.applyAll steps [4, 5] = ⟨[5, 6], some .divisionByZero⟩ := by
    decide +kernel
  have hsame := evaluate_everyone.1 steps group.targets [4, 5] htargets
  exact ⟨htargets, hrun, hsame.symm.trans hrun⟩

end Roll

end DiceNotation
