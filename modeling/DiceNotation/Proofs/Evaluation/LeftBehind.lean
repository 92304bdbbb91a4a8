/-
  What a sweep leaves behind when it fails.

  A sweep changes a row in place, one value after another, and a fault ends it in the middle.  So
  there are rows that are half changed, and here is which they are.

  1. A step that fails has changed NOTHING.  It would fail on every value (`Step.apply_fails_iff`), so
     it fails on the first one that it reaches (`Step.values_applyAt_of_dividesByZero`).
  2. A run of changes that fails is a run that goes through and then one change that fails
     (`Update.run_of_fault`).
  3. A group that fails therefore leaves behind what it would make of the row with the steps in front
     of its first division by zero alone (`Group.apply_of_fault`).
  4. What a group makes of a row when it goes through is known die by die
     (`Group.apply_of_goesThrough`), and by 3. it is then known of a group that fails, too.

  Whether it fails or not, a group keeps the length of the row and the values that it does not
  target.  One step does, and what one step keeps a run keeps (`Update.run_keeps`).
-/
import DiceNotation.Proofs.Evaluation.Failure

namespace DiceNotation

variable {values : List Binary64} {fault : Fault}

/-! ## Updates -/

namespace Update

variable {α : Type} {change : α → List Binary64 → Update} {as : List α} {u : Update}

theorem toExcept_eq_ok_iff : u.toExcept = .ok values ↔ u = done values := by
  obtain ⟨changed, fault⟩ := u
  cases fault with
  | none => simp [toExcept, done]
  | some e => simp [toExcept, done]

theorem toExcept_eq_error_iff : u.toExcept = .error fault ↔ u.fault = some fault := by
  obtain ⟨changed, fault⟩ := u
  cases fault with
  | none => simp [toExcept]
  | some e => simp [toExcept]

theorem eq_done_of_fault (h : u.fault = none) : u = done u.values := by
  obtain ⟨changed, fault⟩ := u
  obtain rfl : fault = none := h
  rfl

theorem done_andThen (next : List Binary64 → Update) : (done values).andThen next = next values :=
  rfl

theorem andThen_of_fault {next : List Binary64 → Update} (h : u.fault = some fault) :
    u.andThen next = u := by
  rw [andThen, h]

/-- **What one change keeps, a run keeps**, even if it fails. -/
theorem run_keeps {P : List Binary64 → Prop}
    (hkeep : ∀ a values, P values → P (change a values).values) (h : P values) :
    P (run change as values).values := by
  induction as generalizing values with
  | nil => exact h
  | cons a as ih =>
    have hfirst := hkeep a values h
    rw [run]
    cases hfault : (change a values).fault with
    | some e =>
      rw [andThen_of_fault hfault]
      exact hfirst
    | none =>
      rw [eq_done_of_fault hfault, done_andThen]
      exact ih hfirst

/-- **A run that fails goes through up to a change that fails**, and is then where this one ends. -/
theorem run_of_fault (h : (run change as values).fault = some fault) :
    ∃ before a after reached, as = before ++ a :: after ∧ run change before values = done reached ∧
      run change as values = change a reached := by
  induction as generalizing values with
  | nil => exact nomatch h
  | cons a as ih =>
    cases hfault : (change a values).fault with
    | some e => exact ⟨[], a, as, values, rfl, rfl, by rw [run, andThen_of_fault hfault]⟩
    | none =>
      have hdone := eq_done_of_fault hfault
      have hrun : ∀ as, run change (a :: as) values = run change as (change a values).values := by
        intro as
        rw [run, hdone, done_andThen]
        rfl
      rw [hrun] at h ⊢
      obtain ⟨before, b, after, reached, rfl, hbefore, hend⟩ := ih h
      exact ⟨a :: before, b, after, reached, rfl, by rw [hrun, hbefore], hend⟩

end Update

/-! ## One step -/

namespace Step

variable {step : Step}

/-- **A step changes neither the length of the row nor a value that is not chosen.** -/
theorem applyAt_keeps (step : Step) (chosen : Nat → Bool) (position : Nat)
    (values : List Binary64) :
    (step.applyAt chosen position values).values.length = values.length ∧
      ∀ j : Nat, chosen (position + j) = false →
        (step.applyAt chosen position values).values[j]? = values[j]? := by
  induction values generalizing position with
  | nil => exact ⟨rfl, fun _ _ => rfl⟩
  | cons value rest ih =>
    obtain ⟨hlen, hat⟩ := ih (position + 1)
    -- the first value is `head` now, and it has not changed if it was not chosen
    have hcons : ∀ head : Binary64, (chosen position = false → head = value) →
        ((step.applyAt chosen (position + 1) rest).cons head).values.length
            = (value :: rest).length ∧
          ∀ j : Nat, chosen (position + j) = false →
            ((step.applyAt chosen (position + 1) rest).cons head).values[j]?
              = (value :: rest)[j]? := by
      intro head hhead
      refine ⟨by simp [Update.cons, hlen], fun j hj => ?_⟩
      cases j with
      | zero => simp [Update.cons, hhead hj]
      | succ j =>
        have hrest := hat j (by rwa [show position + 1 + j = position + (j + 1) by omega])
        simpa [Update.cons] using hrest
    rw [applyAt]
    split
    · rename_i hchosen
      cases step.apply value with
      | error e => exact ⟨rfl, fun _ _ => rfl⟩
      | ok changed =>
        exact hcons changed fun hnot => absurd (hchosen.symm.trans hnot) (by decide)
    · exact hcons value fun _ => rfl

/-- **A step that divides by zero changes nothing**: the first value that it reaches ends it. -/
theorem values_applyAt_of_dividesByZero (h : step.DividesByZero) (chosen : Nat → Bool)
    (position : Nat) (values : List Binary64) :
    (step.applyAt chosen position values).values = values := by
  induction values generalizing position with
  | nil => rfl
  | cons value rest ih =>
    rw [applyAt]
    split
    · rw [(apply_fails_iff value).mpr h]
    · simp only [Update.cons, ih]

/-- A step that fails divides by zero, and reaches a value. -/
theorem dividesByZero_of_fault {chosen : Nat → Bool} {position : Nat}
    (h : (step.applyAt chosen position values).fault = some fault) :
    step.DividesByZero ∧ ∃ j < values.length, chosen (position + j) = true := by
  rw [← Update.toExcept_eq_error_iff, toExcept_applyAt] at h
  obtain rfl := (step.blames_applyWhere chosen).eachDie h
  obtain ⟨j, value, hj, hfail⟩ := (eachDie_fails_iff (step.blames_applyWhere chosen)).mp h
  unfold applyWhere at hfail
  split at hfail
  · rename_i hchosen
    exact ⟨(apply_fails_iff value).mp hfail, j, (List.getElem?_eq_some_iff.mp hj).1, hchosen⟩
  · exact nomatch hfail

/-- **A step for every die is all or nothing.** -/
theorem values_applyAll_of_fault (h : (step.applyAll values).fault = some fault) :
    (step.applyAll values).values = values := by
  rw [applyAll_eq_applyAt step 1] at h ⊢
  exact values_applyAt_of_dividesByZero (dividesByZero_of_fault h).1 _ _ _

end Step

/-! ## A group -/

namespace Group

variable {group : Group}

/-- Whatever becomes of it, a group keeps the length of the row and every value that it does not
    target. -/
theorem apply_keeps (group : Group) (values : List Binary64) :
    (group.apply values).values.length = values.length ∧
      ∀ j : Nat, j + 1 ∉ group.targets → (group.apply values).values[j]? = values[j]? := by
  refine Update.run_keeps (P := fun now => now.length = values.length ∧
    ∀ j : Nat, j + 1 ∉ group.targets → now[j]? = values[j]?) ?_ ⟨rfl, fun _ _ => rfl⟩
  rintro step now ⟨hlen, hat⟩
  obtain ⟨hlen', hat'⟩ := step.applyAt_keeps (group.targets.contains ·) 1 now
  refine ⟨hlen'.trans hlen, fun j hj => ?_⟩
  have hnot : group.targets.contains (1 + j) = false := by
    rwa [List.contains_eq_mem, decide_eq_false_iff_not, Nat.add_comm]
  exact (hat' j hnot).trans (hat j hj)

/-- **When a group fails**: it divides by zero, and has a target that is a position of the row. -/
theorem apply_fails_iff : (group.apply values).fault = some .divisionByZero ↔
    (∃ step ∈ group.steps, step.DividesByZero) ∧
      ∃ t ∈ group.targets, 1 ≤ t ∧ t ≤ values.length := by
  rw [← Update.toExcept_eq_error_iff, toExcept_apply, eachDie_chain_fails_iff, exists_stepsAt_iff]

theorem eq_divisionByZero_of_fault (h : (group.apply values).fault = some fault) :
    fault = .divisionByZero := by
  rw [← Update.toExcept_eq_error_iff, toExcept_apply] at h
  exact (Step.blames_chain _).eachDie h

/-- **What a group makes of a row when it goes through**: every value that it targets has gone through
    all its steps. -/
theorem apply_of_goesThrough (h : (group.apply values).fault = none) {j : Nat} {value : Binary64}
    (hj : values[j]? = some value) (ht : j + 1 ∈ group.targets) :
    ∃ after, Step.chain group.steps value = .ok after ∧
      (group.apply values).values[j]? = some after := by
  have hpass := Update.toExcept_eq_ok_iff.mpr (Update.eq_done_of_fault h)
  rw [toExcept_apply] at hpass
  obtain ⟨after, hafter, hchain⟩ := (eachDie_eq_ok_iff.mp hpass).2 j value hj
  rw [Nat.add_comm, stepsAt, if_pos ht] at hchain
  exact ⟨after, hchain, hafter⟩

/-- **A group that fails is a shorter group that goes through**: the row that it leaves behind is what
    its steps in front of the first division by zero make of it. -/
theorem apply_of_fault (h : (group.apply values).fault = some fault) :
    ∃ first step rest, group.steps = first ++ step :: rest ∧
      (∀ s ∈ first, ¬ s.DividesByZero) ∧ step.DividesByZero ∧
      (⟨group.targets, first⟩ : Group).apply values = .done (group.apply values).values := by
  obtain ⟨first, step, rest, reached, hsteps, hfirst, hend⟩ := Update.run_of_fault h
  -- the step that ends the run has changed nothing
  have hfault : (step.applyAt (group.targets.contains ·) 1 reached).fault = some fault := by
    rw [← hend]
    exact h
  have hzero := (Step.dividesByZero_of_fault hfault).1
  have hstays : (group.apply values).values = reached := by
    rw [apply, hend]
    exact Step.values_applyAt_of_dividesByZero hzero _ _ _
  have hfirst' : (⟨group.targets, first⟩ : Group).apply values = .done reached := hfirst
  refine ⟨first, step, rest, hsteps, ?_, hzero, by rw [hstays, hfirst']⟩
  -- an earlier division by zero would have met the same target and ended the run before
  intro s hs hearlier
  obtain rfl := eq_divisionByZero_of_fault h
  have htarget := (apply_fails_iff.mp h).2
  have hfails : ((⟨group.targets, first⟩ : Group).apply values).fault = some .divisionByZero :=
    apply_fails_iff.mpr ⟨⟨s, hs, hearlier⟩, htarget⟩
  rw [hfirst'] at hfails
  cases hfails

/-- **What a change that fails leaves behind.**  A step for every die that fails has changed nothing.
    A group keeps the values that it does not target; it fails, by a division by zero, exactly if one
    of its steps is one and one of its targets is in the row; where it goes through, each value that it
    targets has gone through all its steps, and where it fails, through exactly the steps in front of
    the first division by zero. -/
theorem apply_leavesBehind :
    (∀ (step : Step) (values : List Binary64) (fault : Fault),
      (step.applyAll values).fault = some fault → (step.applyAll values).values = values) ∧
    ∀ (group : Group) (values : List Binary64),
      (group.apply values).values.length = values.length ∧
      (∀ j : Nat, j + 1 ∉ group.targets → (group.apply values).values[j]? = values[j]?) ∧
      ((group.apply values).fault = some .divisionByZero ↔
        (∃ step ∈ group.steps, step.DividesByZero) ∧
          ∃ t ∈ group.targets, 1 ≤ t ∧ t ≤ values.length) ∧
      (∀ fault, (group.apply values).fault = some fault → fault = .divisionByZero) ∧
      ((group.apply values).fault = none →
        ∀ (j : Nat) (value : Binary64), values[j]? = some value → j + 1 ∈ group.targets →
          ∃ after, Step.chain group.steps value = .ok after ∧
            (group.apply values).values[j]? = some after) ∧
      (∀ fault, (group.apply values).fault = some fault →
        ∃ first step rest, group.steps = first ++ step :: rest ∧
          (∀ s ∈ first, ¬ s.DividesByZero) ∧ step.DividesByZero ∧
          ∀ (j : Nat) (value : Binary64), values[j]? = some value → j + 1 ∈ group.targets →
            ∃ after, Step.chain first value = .ok after ∧
              (group.apply values).values[j]? = some after) := by
  refine ⟨fun _ _ _ => Step.values_applyAll_of_fault, fun group values => ?_⟩
  obtain ⟨hlen, hothers⟩ := group.apply_keeps values
  refine ⟨hlen, hothers, apply_fails_iff, fun _ => eq_divisionByZero_of_fault,
    fun h _ _ => apply_of_goesThrough h, fun fault h => ?_⟩
  obtain ⟨first, step, rest, hsteps, hharmless, hzero, hfirst⟩ := apply_of_fault h
  refine ⟨first, step, rest, hsteps, hharmless, hzero, fun j value hj ht => ?_⟩
  have hthrough : ((⟨group.targets, first⟩ : Group).apply values).fault = none := by
    rw [hfirst]
    rfl
  obtain ⟨after, hchain, hafter⟩ := apply_of_goesThrough hthrough hj ht
  rw [hfirst] at hafter
  exact ⟨after, hchain, hafter⟩

/-- Three values, of which the second and the third are targeted beside a position that no value is
    at.  The second of four steps divides by the negative zero; both values have seen the first step,
    and none has seen the third.  For every die the same division changes nothing. -/
theorem apply_leavesBehind_halfway :
    let division : Step := ⟨.divide, .zero true⟩
    let group : Group := ⟨[2, 3, 9], [⟨.add, 1⟩, division, ⟨.multiply, 3⟩, ⟨.divide, 0⟩]⟩
    (group.apply [4, 5, 6]).fault = some .divisionByZero ∧
    (group.apply [4, 5, 6]).values = [4, 6, 7] ∧
    (∃ first step rest, group.steps = first ++ step :: rest ∧
      (∀ s ∈ first, ¬ s.DividesByZero) ∧ step.DividesByZero ∧
      ∃ after, Step.chain first 5 = .ok after ∧ (group.apply [4, 5, 6]).values[1]? = some after) ∧
    (division.applyAll [4, 5, 6]).fault = some .divisionByZero ∧
    (division.applyAll [4, 5, 6]).values = [4, 5, 6] := by
  intro division group
  have hgroup : (group.apply [4, 5, 6]).fault = some .divisionByZero := by decide +kernel
  have hall : (division.applyAll [4, 5, 6]).fault = some .divisionByZero := by decide +kernel
  obtain ⟨hsteps, hgroups⟩ := apply_leavesBehind
  obtain ⟨-, -, -, -, -, hbehind⟩ := hgroups group [4, 5, 6]
  obtain ⟨first, step, rest, hcut, hharmless, hzero, hat⟩ := hbehind _ hgroup
  exact ⟨hgroup, by decide +kernel,
    ⟨first, step, rest, hcut, hharmless, hzero, hat 1 5 rfl (by decide)⟩, hall,
    hsteps division [4, 5, 6] _ hall⟩

end Group

end DiceNotation
