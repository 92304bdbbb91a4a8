/-
  When an evaluation fails.

  The roll alone decides it.  No value that a die could show makes a step fail or saves it: a step
  that divides by zero fails on EVERY value, and every other step on none (`Step.apply_fails_iff`).

  1. So a chain of steps fails exactly if one of them divides by zero, wherever it stands
     (`Step.chain_fails_iff`).
  2. A pass over a row fails exactly if it fails at one of the dice (`eachDie_fails_iff`).  Which die
     is the first to fail makes no difference, since there is one fault only.
  3. Hence an evaluation fails exactly if a division by zero reaches a die.  One for every die
     reaches the first die, of which there has to be one; one in a group reaches a die if a target
     of the group is among the dice (`Roll.exists_stepsAt_iff`).

  Neither the way in which the dice fall nor the source of words is mentioned in this, so the three
  runs of an envelope fail together or not at all (`Roll.envelope_eq`, `Roll.envelope_chance`).  That
  the dice fall at all is a property of the source; of another generator it has to be assumed, and is
  all that has to be (`Roll.Evaluated.fails_iff`).
-/
import DiceNotation.Envelope
import DiceNotation.Proofs.Evaluation.DieByDie

namespace DiceNotation

/-! ## Divisions by zero -/

/-- A step that divides by zero, by the one or the other of the two zeros. -/
def Step.DividesByZero (step : Step) : Prop :=
  step.operator = .divide ∧
    (step.operand = Binary64.zero false ∨ step.operand = Binary64.zero true)

instance (step : Step) : Decidable step.DividesByZero :=
  inferInstanceAs (Decidable (_ ∧ (_ ∨ _)))

/-- A roll that takes a die through a division by zero: it has one for every die, or one in a group
    of which at least one target is the position of a die. -/
def Roll.DividesByZero (roll : Roll) : Prop :=
  (∃ step ∈ roll.steps, step.DividesByZero) ∨
    ∃ group ∈ roll.groups, (∃ step ∈ group.steps, step.DividesByZero) ∧
      ∃ t ∈ group.targets, 1 ≤ t ∧ t ≤ roll.dice.count

instance (roll : Roll) : Decidable roll.DividesByZero :=
  inferInstanceAs (Decidable ((∃ step ∈ roll.steps, step.DividesByZero) ∨
    ∃ group ∈ roll.groups, (∃ step ∈ group.steps, step.DividesByZero) ∧
      ∃ t ∈ group.targets, 1 ≤ t ∧ t ≤ roll.dice.count))

theorem Binary64.isZero_iff {x : Binary64} : x.isZero = true ↔ x = zero false ∨ x = zero true := by
  constructor
  · intro h
    match x, h with
    | finite negative grains _, h =>
      obtain rfl : grains = 0 := beq_iff_eq.mp h
      cases negative with
      | false => exact Or.inl rfl
      | true => exact Or.inr rfl
  · rintro (rfl | rfl)
    · rfl
    · rfl

/-! ## One die -/

namespace Step

variable {step : Step} {steps : List Step}

/-- **A step fails on every value or on none.** -/
theorem apply_fails_iff (value : Binary64) :
    step.apply value = .error .divisionByZero ↔ step.DividesByZero := by
  obtain ⟨operator, operand⟩ := step
  cases operator with
  | add => simp [apply, Operator.apply, DividesByZero]
  | subtract => simp [apply, Operator.apply, DividesByZero]
  | multiply => simp [apply, Operator.apply, DividesByZero]
  | divide =>
    simp only [apply, Operator.apply, DividesByZero, true_and, ← Binary64.isZero_iff]
    cases operand.isZero with
    | true => simp
    | false => simp

/-- **A chain fails wherever the division by zero stands in it.**  Induction on the chain; the steps
    in front of the division only change the value that it fails on. -/
theorem chain_fails_iff (value : Binary64) :
    chain steps value = .error .divisionByZero ↔ ∃ step ∈ steps, step.DividesByZero := by
  induction steps generalizing value with
  | nil =>
    constructor
    · intro h
      cases h
    · rintro ⟨step, hstep, -⟩
      exact absurd hstep List.not_mem_nil
  | cons step rest ih =>
    simp only [chain_cons, bind_eq_error, apply_fails_iff, List.mem_cons, exists_eq_or_imp]
    constructor
    · rintro (hfirst | ⟨changed, -, hrest⟩)
      · exact Or.inl hfirst
      · exact Or.inr ((ih changed).mp hrest)
    · rintro (hfirst | hrest)
      · exact Or.inl hfirst
      · -- if this step fails, it is a division by zero itself, and the chain ends even earlier
        cases hv : step.apply value with
        | error e =>
          obtain rfl := apply_eq_error hv
          exact Or.inl ((apply_fails_iff value).mp hv)
        | ok changed => exact Or.inr ⟨changed, rfl, (ih changed).mpr hrest⟩

end Step

/-! ## A row of dice -/

/-- **A pass fails at one of the dice.** -/
theorem eachDie_fails_iff {fault : Fault} {f : Nat → Binary64 → Except Fault Binary64}
    (hf : Blames fault f) {position : Nat} {values : List Binary64} :
    eachDie f position values = .error fault ↔
      ∃ (j : Nat) (value : Binary64),
        values[j]? = some value ∧ f (position + j) value = .error fault := by
  induction values generalizing position with
  | nil =>
    constructor
    · intro h
      cases h
    · rintro ⟨j, value, hj, -⟩
      exact absurd hj (by simp)
  | cons value rest ih =>
    have hrest : eachDie f position (value :: rest) = .error fault ↔
        f position value = .error fault ∨ eachDie f (position + 1) rest = .error fault := by
      rw [eachDie]
      cases hv : f position value with
      | error e =>
        obtain rfl := hf _ _ _ hv
        exact ⟨fun _ => Or.inl rfl, fun _ => rfl⟩
      | ok changed =>
        cases eachDie f (position + 1) rest with
        | error e => simp [bind, Except.bind]
        | ok others => simp [bind, Except.bind, pure, Except.pure]
    rw [hrest, ih]
    constructor
    · rintro (hfirst | ⟨j, v, hj, hfail⟩)
      · exact ⟨0, value, rfl, hfirst⟩
      · refine ⟨j + 1, v, by simpa using hj, ?_⟩
        rwa [show position + (j + 1) = position + 1 + j by omega]
    · rintro ⟨j, v, hj, hfail⟩
      cases j with
      | zero =>
        obtain rfl : value = v := by simpa using hj
        exact Or.inl hfail
      | succ j =>
        refine Or.inr ⟨j, v, by simpa using hj, ?_⟩
        rwa [show position + 1 + j = position + (j + 1) by omega]

/-- **A pass of chains fails at a die that a division by zero reaches.**  What the dice show has left
    the condition; only their number is in it. -/
theorem eachDie_chain_fails_iff {stepsAt : Nat → List Step} {position : Nat}
    {values : List Binary64} :
    eachDie (fun position => Step.chain (stepsAt position)) position values
        = .error .divisionByZero ↔
      ∃ j < values.length, ∃ step ∈ stepsAt (position + j), step.DividesByZero := by
  rw [eachDie_fails_iff (Step.blames_chain _)]
  simp only [Step.chain_fails_iff]
  constructor
  · rintro ⟨j, value, hj, hreached⟩
    exact ⟨j, (List.getElem?_eq_some_iff.mp hj).1, hreached⟩
  · rintro ⟨j, hj, hreached⟩
    exact ⟨j, values[j], List.getElem?_eq_getElem hj, hreached⟩

/-- **Where a division by zero in a group reaches a die**: at each target that is the position of
    one. -/
theorem Group.exists_stepsAt_iff {group : Group} {count : Nat} :
    (∃ j < count, ∃ step ∈ group.stepsAt (1 + j), step.DividesByZero) ↔
      (∃ step ∈ group.steps, step.DividesByZero) ∧ ∃ t ∈ group.targets, 1 ≤ t ∧ t ≤ count := by
  constructor
  · rintro ⟨j, hj, step, hstep, hzero⟩
    unfold stepsAt at hstep
    split at hstep
    · rename_i htarget
      exact ⟨⟨step, hstep, hzero⟩, 1 + j, htarget, by omega, by omega⟩
    · exact absurd hstep List.not_mem_nil
  · rintro ⟨⟨step, hstep, hzero⟩, t, ht, hpos, hle⟩
    refine ⟨t - 1, by omega, step, ?_, hzero⟩
    rwa [show 1 + (t - 1) = t by omega, stepsAt, if_pos ht]

/-! ## Rolls -/

namespace Roll

variable {roll : Roll} {how : Fall} {source : WordSource}

/-- The faults of an evaluation are those of its pass over the dice. -/
theorem evaluate_eq_error_iff {e : Fault} : (roll.evaluate how source).1 = .error e ↔
    eachDie (fun position => Step.chain (roll.stepsAt position)) 1
      (roll.dice.fall how source).1 = .error e := by
  rw [evaluate_eq]
  cases eachDie (fun position => Step.chain (roll.stepsAt position)) 1
      (roll.dice.fall how source).1 with
  | error e' => simp [Except.map]
  | ok final => simp [Except.map]

/-- Dividing by zero is the only fault of an evaluation. -/
theorem evaluate_eq_error {e : Fault} (h : (roll.evaluate how source).1 = .error e) :
    e = .divisionByZero :=
  (Step.blames_chain _).eachDie (evaluate_eq_error_iff.mp h)

/-- An evaluation fails if a division by zero reaches a die, and else does not. -/
theorem evaluate_fails_iff_stepsAt : (roll.evaluate how source).1 = .error .divisionByZero ↔
    ∃ j < roll.dice.count, ∃ step ∈ roll.stepsAt (1 + j), step.DividesByZero := by
  rw [evaluate_eq_error_iff, eachDie_chain_fails_iff, Dice.length_fall]

/-- **Where a division by zero reaches a die**: at the first one if it is for every die, and else at
    a target of its group. -/
theorem exists_stepsAt_iff (h : 1 ≤ roll.dice.count) :
    (∃ j < roll.dice.count, ∃ step ∈ roll.stepsAt (1 + j), step.DividesByZero) ↔
      roll.DividesByZero := by
  constructor
  · rintro ⟨j, hj, step, hstep, hzero⟩
    rcases List.mem_append.mp hstep with hstep | hstep
    · exact Or.inl ⟨step, hstep, hzero⟩
    · obtain ⟨group, hgroup, hstep⟩ := List.mem_flatMap.mp hstep
      exact Or.inr ⟨group, hgroup, Group.exists_stepsAt_iff.mp ⟨j, hj, step, hstep, hzero⟩⟩
  · rintro (⟨step, hstep, hzero⟩ | ⟨group, hgroup, hreached⟩)
    · exact ⟨0, h, step, List.mem_append_left _ hstep, hzero⟩
    · obtain ⟨j, hj, step, hstep, hzero⟩ := Group.exists_stepsAt_iff.mpr hreached
      have hmem : step ∈ roll.groups.flatMap (·.stepsAt (1 + j)) :=
        List.mem_flatMap.mpr ⟨group, hgroup, hstep⟩
      exact ⟨j, hj, step, List.mem_append_right _ hmem, hzero⟩

/-- An evaluation that does not fail so succeeds. -/
theorem evaluate_succeeds_iff : (∃ outcome, (roll.evaluate how source).1 = .ok outcome) ↔
    ¬ (roll.evaluate how source).1 = .error .divisionByZero := by
  cases hrun : (roll.evaluate how source).1 with
  | error e =>
    obtain rfl := evaluate_eq_error hrun
    simp
  | ok outcome => simp

/-- What succeeds once succeeds always, however the dice fall. -/
theorem evaluate_ok_of_ok {outcome : Outcome} (h : (roll.evaluate how source).1 = .ok outcome)
    (how' : Fall) (source' : WordSource) :
    ∃ outcome', (roll.evaluate how' source').1 = .ok outcome' := by
  have hok := evaluate_succeeds_iff.mp ⟨outcome, h⟩
  rw [evaluate_fails_iff_stepsAt] at hok
  rw [evaluate_succeeds_iff, evaluate_fails_iff_stepsAt]
  exact hok

/-! ## Envelopes -/

/-- An envelope is three runs from one source, of which only the one by chance takes words. -/
theorem envelope_eq (roll : Roll) (source : WordSource) :
    roll.envelope source =
      (do
        let chance ← (roll.evaluate .chance source).1
        let lowest ← (roll.evaluate .lowest source).1
        let highest ← (roll.evaluate .highest source).1
        return ⟨chance, lowest, highest⟩,
        (roll.evaluate .chance source).2) := by
  -- at their lowest and at their highest the dice do not see the source
  have hlowest : ∀ source', roll.evaluate .lowest source'
      = ((roll.evaluate .lowest source).1, source') := fun _ => rfl
  have hhighest : ∀ source', roll.evaluate .highest source'
      = ((roll.evaluate .highest source).1, source') := fun _ => rfl
  unfold envelope
  rcases roll.evaluate .chance source with ⟨e | chance, rest⟩
  · rfl
  · simp only [hlowest rest, hhighest rest]
    cases (roll.evaluate .lowest source).1 with
    | error e => rfl
    | ok lowest =>
      cases (roll.evaluate .highest source).1 with
      | error e => rfl
      | ok highest => rfl

/-- **The run by chance decides the envelope**: it succeeds or fails with it, and is part of it. -/
theorem envelope_chance (roll : Roll) (source : WordSource) :
    (roll.envelope source).1.map (·.chance) = (roll.evaluate .chance source).1 := by
  rw [envelope_eq]
  cases hchance : (roll.evaluate .chance source).1 with
  | error e => rfl
  | ok chance =>
    obtain ⟨lowest, hlowest⟩ := evaluate_ok_of_ok hchance .lowest source
    obtain ⟨highest, hhighest⟩ := evaluate_ok_of_ok hchance .highest source
    rw [hlowest, hhighest]
    rfl

/-- **The roll alone decides when an evaluation fails.**  If there are dice at all, it fails exactly
    if a division by zero reaches one of them, and never in another way; so it fails however the
    dice fall or not at all, and an envelope succeeds exactly if its run at the lowest does. -/
theorem evaluate_failure (h : 1 ≤ roll.dice.count) :
    (∀ how source,
      (roll.evaluate how source).1 = .error .divisionByZero ↔ roll.DividesByZero) ∧
    (∀ how source,
      (∃ outcome, (roll.evaluate how source).1 = .ok outcome) ↔ ¬ roll.DividesByZero) ∧
    (∀ how source e, (roll.evaluate how source).1 = .error e → e = .divisionByZero) ∧
    (∀ how how' source source',
      (∃ outcome, (roll.evaluate how source).1 = .ok outcome) ↔
        ∃ outcome, (roll.evaluate how' source').1 = .ok outcome) ∧
    ∀ source source',
      (∃ envelope, (roll.envelope source).1 = .ok envelope) ↔
        ∃ outcome, (roll.evaluate .lowest source').1 = .ok outcome := by
  refine ⟨fun how source => ?_, fun how source => ?_, fun _ _ _ => evaluate_eq_error,
    fun how how' source source' => ?_, fun source source' => ?_⟩
  · exact evaluate_fails_iff_stepsAt.trans (exists_stepsAt_iff h)
  · rw [evaluate_succeeds_iff, evaluate_fails_iff_stepsAt, exists_stepsAt_iff h]
  · exact ⟨fun ⟨_, hok⟩ => evaluate_ok_of_ok hok _ _, fun ⟨_, hok⟩ => evaluate_ok_of_ok hok _ _⟩
  · constructor
    · rintro ⟨envelope, henvelope⟩
      have hchance := envelope_chance roll source
      rw [henvelope] at hchance
      exact evaluate_ok_of_ok hchance.symm _ _
    · rintro ⟨lowest, hlowest⟩
      obtain ⟨chance, hchance⟩ := evaluate_ok_of_ok hlowest .chance source
      rw [← envelope_chance] at hchance
      obtain ⟨envelope, henvelope, -⟩ := map_eq_ok.mp hchance
      exact ⟨envelope, henvelope⟩

/-- Three dice, and a division by zero for the fourth and the third; with the fourth alone as its
    target the division reaches no die. -/
theorem evaluate_failure_outOfReach :
    let missed : Roll := ⟨"3d6i4:/0".toList, ⟨3, 1, 6⟩, [], [⟨[4], [⟨.divide, 0⟩]⟩], .plain⟩
    let met : Roll := ⟨"3d6i4,3:/0".toList, ⟨3, 1, 6⟩, [], [⟨[3, 4], [⟨.divide, 0⟩]⟩], .plain⟩
    read missed.source = .ok missed ∧ read met.source = .ok met ∧
    1 ≤ missed.dice.count ∧ 1 ≤ met.dice.count ∧
    (∀ source, ∃ outcome, (missed.evaluate .chance source).1 = .ok outcome) ∧
    ∀ source, (met.evaluate .chance source).1 = .error .divisionByZero := by
  intro missed met
  have hmissed : ¬ missed.DividesByZero := by decide +kernel
  have hmet : met.DividesByZero := by decide +kernel
  refine ⟨by decide +kernel, by decide +kernel, by decide, by decide, fun source => ?_,
    fun source => ?_⟩
  · have hsome : 1 ≤ missed.dice.count := by decide
    exact ((evaluate_failure hsome).2.1 .chance source).mpr hmissed
  · have hsome : 1 ≤ met.dice.count := by decide
    exact ((evaluate_failure hsome).1 .chance source).mpr hmet

end Roll

end DiceNotation
