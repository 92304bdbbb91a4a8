/-
  Sweep by sweep is die by die.

  A roll changes its values in sweeps: every step runs over the whole row before the next one
  starts.  Here the two loops change places.  `Roll.stepsAt` lists the steps that reach the die at
  one position, `Step.chain` takes one value through them, and `eachDie` does so for every value of
  a row, none of which sees another.

  1. One sweep of one step is an `eachDie` (`toExcept_applyAll`, `toExcept_applyAt`).
  2. The crux is `eachDie_bind`: two passes over a row are one pass that does both things to each
     value.  In general this is false of values, because the first pass may fail at a late die
     where the one pass would already fail at an early one.  It is true here since there is only
     one fault that a step can have (`Blames`).
  3. Any number of sweeps is then one pass (`eachDie_foldlM`), by induction on the sweeps, and so is
     all that a roll does (`toExcept_modify`).
  4. Read at one position, this is what a single die goes through (`eachDie_eq_ok_iff`).
-/
import DiceNotation.Outcome
import DiceNotation.Proofs.Reading
import Mathlib.Control.Monad.Basic

namespace DiceNotation

/-! ## The steps of one die -/

/-- A value after some steps in order, up to the first that fails. -/
def Step.chain (steps : List Step) (value : Binary64) : Except Fault Binary64 :=
  steps.foldlM (fun value step => step.apply value) value

/-- The steps of a group that reach the die at a position: all of them or none. -/
def Group.stepsAt (group : Group) (position : Nat) : List Step :=
  if position ∈ group.targets then group.steps else []

/-- The steps of a roll that reach the die at a position, in the order in which they do. -/
def Roll.stepsAt (roll : Roll) (position : Nat) : List Step :=
  roll.steps ++ roll.groups.flatMap (·.stepsAt position)

theorem Step.chain_nil (value : Binary64) : chain [] value = .ok value := rfl

theorem Step.chain_cons (step : Step) (steps : List Step) (value : Binary64) :
    chain (step :: steps) value = step.apply value >>= chain steps := rfl

theorem Step.chain_append (first second : List Step) (value : Binary64) :
    chain (first ++ second) value = chain first value >>= chain second :=
  List.foldlM_append

/-! ## Each die on its own -/

/-- Changes each value by what is done at its position; the first value is at `position`. -/
def eachDie (change : Nat → Binary64 → Except Fault Binary64) (position : Nat) :
    List Binary64 → Except Fault (List Binary64)
  | [] => .ok []
  | value :: rest => do
    let changed ← change position value
    let others ← eachDie change (position + 1) rest
    return changed :: others

/-- The change fails with one fault only. -/
def Blames (fault : Fault) (change : Nat → Binary64 → Except Fault Binary64) : Prop :=
  ∀ position value e, change position value = .error e → e = fault

variable {fault : Fault} {f g : Nat → Binary64 → Except Fault Binary64}

theorem eachDie_ok (position : Nat) (values : List Binary64) :
    eachDie (fun _ value => .ok value) position values = .ok values := by
  induction values generalizing position with
  | nil => rfl
  | cons value rest ih =>
    rw [eachDie, ih]
    rfl

/-- A row fails with the fault of one of its dice. -/
theorem Blames.eachDie (hf : Blames fault f) {position : Nat} {values : List Binary64} {e : Fault}
    (h : eachDie f position values = .error e) : e = fault := by
  induction values generalizing position with
  | nil => exact nomatch h
  | cons value rest ih =>
    rw [DiceNotation.eachDie] at h
    rcases bind_eq_error.mp h with hfirst | ⟨changed, -, h⟩
    · exact hf _ _ _ hfirst
    · rcases bind_eq_error.mp h with hrest | ⟨others, -, h⟩
      · exact ih hrest
      · cases h

theorem Blames.bind (hf : Blames fault f) (hg : Blames fault g) :
    Blames fault fun position value => f position value >>= g position := by
  intro position value e h
  rcases bind_eq_error.mp h with hfirst | ⟨changed, -, hsecond⟩
  · exact hf _ _ _ hfirst
  · exact hg _ _ _ hsecond

/-- **Two passes are one pass.**  Induction on the row; where the first pass fails further on, the
    one pass may fail here, but with the same fault. -/
theorem eachDie_bind (hf : Blames fault f) (hg : Blames fault g) (position : Nat)
    (values : List Binary64) :
    (eachDie f position values >>= eachDie g position)
      = eachDie (fun position value => f position value >>= g position) position values := by
  induction values generalizing position with
  | nil => rfl
  | cons value rest ih =>
    rw [eachDie, eachDie, ← ih (position + 1)]
    cases hv : f position value with
    | error e => rfl
    | ok changed =>
      cases hr : eachDie f (position + 1) rest with
      | error e =>
        -- a die further on has failed already, and whether this one does makes no difference
        obtain rfl : e = fault := hf.eachDie hr
        cases hc : g position changed with
        | error e' =>
          obtain rfl : e' = e := hg _ _ _ hc
          simp only [bind, Except.bind, hc]
        | ok again => simp only [bind, Except.bind, hc]
      | ok others =>
        show eachDie g position (changed :: others) = _
        rw [eachDie]
        cases hc : g position changed with
        | error e' => simp only [bind, Except.bind, hc]
        | ok again => simp only [bind, Except.bind, hc]

/-- **Any number of passes are one pass.** -/
theorem eachDie_foldlM {α : Type} (change : α → Nat → Binary64 → Except Fault Binary64)
    (h : ∀ a, Blames fault (change a)) (as : List α) (position : Nat) (values : List Binary64) :
    as.foldlM (fun values a => eachDie (change a) position values) values
      = eachDie (fun position value => as.foldlM (fun value a => change a position value) value)
          position values := by
  induction as generalizing values with
  | nil => exact (eachDie_ok position values).symm
  | cons a as ih =>
    have hrest : Blames fault
        fun position value => as.foldlM (fun value a => change a position value) value := by
      clear ih
      induction as with
      | nil => exact fun _ _ _ hnone => nomatch hnone
      | cons b as ihs => exact (h b).bind ihs
    simp only [List.foldlM_cons]
    rw [← eachDie_bind (h a) hrest position values]
    congr 1
    funext values
    exact ih values

theorem eachDie_cons_eq_ok {position : Nat} {value : Binary64} {rest changed : List Binary64} :
    eachDie f position (value :: rest) = .ok changed ↔
      ∃ after others, f position value = .ok after ∧
        eachDie f (position + 1) rest = .ok others ∧ after :: others = changed := by
  rw [eachDie]
  constructor
  · intro h
    obtain ⟨after, hfirst, h⟩ := bind_eq_ok.mp h
    obtain ⟨others, hrest, h⟩ := bind_eq_ok.mp h
    exact ⟨after, others, hfirst, hrest, Except.ok.inj h⟩
  · rintro ⟨after, others, hfirst, hrest, rfl⟩
    rw [hfirst, hrest]
    rfl

/-- **What a pass does at one position.** -/
theorem eachDie_eq_ok_iff {position : Nat} {values changed : List Binary64} :
    eachDie f position values = .ok changed ↔
      changed.length = values.length ∧
        ∀ (j : Nat) (value : Binary64), values[j]? = some value →
          ∃ after, changed[j]? = some after ∧ f (position + j) value = .ok after := by
  induction values generalizing position changed with
  | nil =>
    constructor
    · intro h
      obtain rfl : [] = changed := Except.ok.inj h
      exact ⟨rfl, fun j value hj => absurd hj (by simp)⟩
    · rintro ⟨hlen, -⟩
      rw [List.length_eq_zero_iff.mp hlen]
      rfl
  | cons value rest ih =>
    rw [eachDie_cons_eq_ok]
    constructor
    · rintro ⟨after, others, hfirst, hrest, rfl⟩
      obtain ⟨hlen, hat⟩ := ih.mp hrest
      refine ⟨by simp [hlen], fun j v hj => ?_⟩
      cases j with
      | zero =>
        obtain rfl : value = v := by simpa using hj
        exact ⟨after, rfl, hfirst⟩
      | succ j =>
        obtain ⟨w, hw, hf⟩ := hat j v (by simpa using hj)
        refine ⟨w, by simpa using hw, ?_⟩
        rwa [show position + (j + 1) = position + 1 + j by omega]
    · rintro ⟨hlen, hat⟩
      cases changed with
      | nil => simp at hlen
      | cons after others =>
        obtain ⟨w, hw, hfirst⟩ := hat 0 value rfl
        obtain rfl : after = w := by simpa using hw
        refine ⟨after, others, hfirst, ih.mpr ⟨by simpa using hlen, fun j v hj => ?_⟩, rfl⟩
        obtain ⟨u, hu, hf⟩ := hat (j + 1) v (by simpa using hj)
        refine ⟨u, by simpa using hu, ?_⟩
        rwa [show position + 1 + j = position + (j + 1) by omega]

/-! ## Sweeps are passes -/

/-- Dividing by zero is the only fault of a step. -/
theorem Step.apply_eq_error {step : Step} {value : Binary64} {e : Fault}
    (h : step.apply value = .error e) : e = .divisionByZero := by
  obtain ⟨operator, operand⟩ := step
  cases operator with
  | add => exact nomatch h
  | subtract => exact nomatch h
  | multiply => exact nomatch h
  | divide =>
    simp only [apply, Operator.apply] at h
    split at h
    · exact (Except.error.inj h).symm
    · exact nomatch h

/-- What one sweep of a step does to the value at a position. -/
def Step.applyWhere (step : Step) (chosen : Nat → Bool) (position : Nat) (value : Binary64) :
    Except Fault Binary64 :=
  if chosen position then step.apply value else .ok value

theorem Step.blames_applyWhere (step : Step) (chosen : Nat → Bool) :
    Blames .divisionByZero (step.applyWhere chosen) := by
  intro position value e h
  unfold applyWhere at h
  split at h
  · exact apply_eq_error h
  · exact nomatch h

theorem Update.toExcept_cons (value : Binary64) (u : Update) :
    (u.cons value).toExcept = u.toExcept.map (value :: ·) := by
  obtain ⟨values, fault⟩ := u
  cases fault with
  | none => rfl
  | some e => rfl

theorem Update.toExcept_andThen (u : Update) (change : List Binary64 → Update) :
    (u.andThen change).toExcept = u.toExcept >>= fun values => (change values).toExcept := by
  obtain ⟨values, fault⟩ := u
  cases fault with
  | none => rfl
  | some e => rfl

theorem Update.toExcept_run {α : Type} (change : α → List Binary64 → Update) (as : List α)
    (values : List Binary64) :
    (run change as values).toExcept
      = as.foldlM (fun values a => (change a values).toExcept) values := by
  induction as generalizing values with
  | nil => rfl
  | cons a as ih =>
    rw [run, toExcept_andThen, List.foldlM_cons]
    congr 1
    funext values
    exact ih values

/-- The sweep over chosen positions is a pass. -/
theorem Step.toExcept_applyAt (step : Step) (chosen : Nat → Bool) (position : Nat)
    (values : List Binary64) :
    (step.applyAt chosen position values).toExcept
      = eachDie (step.applyWhere chosen) position values := by
  induction values generalizing position with
  | nil => rfl
  | cons value rest ih =>
    rw [applyAt, eachDie, applyWhere]
    split
    · cases step.apply value with
      | error e => rfl
      | ok changed =>
        show (Update.cons changed _).toExcept = _
        rw [Update.toExcept_cons, ih]
        rfl
    · rw [Update.toExcept_cons, ih]
      rfl

/-- Sweeping over every value is choosing every position. -/
theorem Step.applyAll_eq_applyAt (step : Step) (position : Nat) (values : List Binary64) :
    step.applyAll values = step.applyAt (fun _ => true) position values := by
  induction values generalizing position with
  | nil => rfl
  | cons value rest ih => simp only [applyAll, applyAt, if_true, ih (position + 1)]

/-- The sweep over every value is a pass. -/
theorem Step.toExcept_applyAll (step : Step) (position : Nat) (values : List Binary64) :
    (step.applyAll values).toExcept = eachDie (fun _ => step.apply) position values := by
  rw [applyAll_eq_applyAt step position, toExcept_applyAt]
  rfl

theorem Step.chain_eq_error {steps : List Step} {value : Binary64} {e : Fault}
    (h : chain steps value = .error e) : e = .divisionByZero := by
  induction steps generalizing value with
  | nil => exact nomatch h
  | cons step rest ih =>
    rw [chain_cons] at h
    rcases bind_eq_error.mp h with hfirst | ⟨changed, -, hrest⟩
    · exact apply_eq_error hfirst
    · exact ih hrest

theorem Step.blames_chain (steps : Nat → List Step) :
    Blames .divisionByZero fun position => chain (steps position) :=
  fun _ _ _ h => chain_eq_error h

/-- The sweeps of a group are one pass, in which a die goes through all steps or none. -/
theorem Group.toExcept_apply (group : Group) (values : List Binary64) :
    (group.apply values).toExcept
      = eachDie (fun position => Step.chain (group.stepsAt position)) 1 values := by
  rw [apply, Update.toExcept_run]
  simp only [Step.toExcept_applyAt]
  rw [eachDie_foldlM _ fun step => step.blames_applyWhere _]
  congr 1
  funext position value
  unfold stepsAt
  by_cases ht : position ∈ group.targets
  · simp only [Step.applyWhere, List.contains_eq_mem, ht, decide_true, if_true]
    rfl
  · simp only [Step.applyWhere, List.contains_eq_mem, ht, decide_false,
      Bool.false_eq_true, if_false, Step.chain_nil]
    induction group.steps with
    | nil => rfl
    | cons step steps ih => exact ih

/-- **All that a roll does to its values is one pass**, in which each die goes through the steps
    that reach it. -/
theorem Roll.toExcept_modify (roll : Roll) (values : List Binary64) :
    (roll.modify values).toExcept
      = eachDie (fun position => Step.chain (roll.stepsAt position)) 1 values := by
  have hsteps : ∀ values, (Update.run Step.applyAll roll.steps values).toExcept
      = eachDie (fun _ => Step.chain roll.steps) 1 values := by
    intro values
    rw [Update.toExcept_run]
    simp only [Step.toExcept_applyAll _ 1]
    exact eachDie_foldlM _ (fun step _ _ _ h => Step.apply_eq_error h) roll.steps 1 values
  have hgroups : ∀ values, (Update.run Group.apply roll.groups values).toExcept
      = eachDie (fun position => Step.chain (roll.groups.flatMap (·.stepsAt position))) 1
          values := by
    intro values
    rw [Update.toExcept_run]
    simp only [Group.toExcept_apply]
    rw [eachDie_foldlM (fun (group : Group) position => Step.chain (group.stepsAt position))
      fun group => Step.blames_chain group.stepsAt]
    congr 1
    funext position value
    induction roll.groups generalizing value with
    | nil => rfl
    | cons group groups ih =>
      rw [List.foldlM_cons, List.flatMap_cons, Step.chain_append]
      congr 1
      funext changed
      exact ih changed
  rw [modify, Update.toExcept_andThen, hsteps]
  simp only [hgroups]
  rw [eachDie_bind (Step.blames_chain fun _ => roll.steps) (Step.blames_chain _)]
  congr 1
  funext position value
  exact (Step.chain_append _ _ _).symm

/-! ## Outcomes -/

/-- As many values fall as there are dice. -/
theorem Dice.length_fall (dice : Dice) (how : Fall) (source : WordSource) :
    (dice.fall how source).1.length = dice.count := by
  have hchance : ∀ count source, (dice.byChance count source).1.length = count := by
    intro count
    induction count with
    | zero => exact fun _ => rfl
    | succ count ih =>
      intro source
      simp only [byChance, List.length_cons, ih]
  cases how with
  | chance => exact hchance _ _
  | highest => exact List.length_replicate
  | lowest => exact List.length_replicate

theorem Roll.evaluate_eq (roll : Roll) (how : Fall) (source : WordSource) :
    roll.evaluate how source =
      ((eachDie (fun position => Step.chain (roll.stepsAt position)) 1
          (roll.dice.fall how source).1).map
        fun final => ⟨roll.source, final, (roll.dice.fall how source).1⟩,
        (roll.dice.fall how source).2) := by
  rw [← toExcept_modify]
  rfl

/-- What an evaluation that succeeds has come to, die by die. -/
theorem Roll.evaluate_eq_ok {roll : Roll} {how : Fall} {source : WordSource} {outcome : Outcome}
    (h : (roll.evaluate how source).1 = .ok outcome) :
    outcome.fallen = (roll.dice.fall how source).1 ∧ outcome.final.length = roll.dice.count ∧
      ∀ (j : Nat) (value : Binary64), outcome.fallen[j]? = some value →
        ∃ after, outcome.final[j]? = some after ∧
          Step.chain (roll.stepsAt (j + 1)) value = .ok after := by
  rw [evaluate_eq] at h
  obtain ⟨final, hpass, rfl⟩ := map_eq_ok.mp h
  obtain ⟨hlen, hat⟩ := eachDie_eq_ok_iff.mp hpass
  refine ⟨rfl, hlen.trans (Dice.length_fall _ _ _), fun j value hj => ?_⟩
  rw [show j + 1 = 1 + j by omega]
  exact hat j value hj

/-- The value at a position is a function of what fell there. -/
theorem Roll.final_getElem? {roll : Roll} {how : Fall} {source : WordSource} {outcome : Outcome}
    (h : (roll.evaluate how source).1 = .ok outcome) (j : Nat) :
    outcome.final[j]? =
      outcome.fallen[j]?.bind fun value => (Step.chain (roll.stepsAt (j + 1)) value).toOption := by
  obtain ⟨hfallen, hlen, hat⟩ := evaluate_eq_ok h
  cases hj : outcome.fallen[j]? with
  | some value =>
    obtain ⟨after, hafter, hchain⟩ := hat j value hj
    rw [hafter, Option.bind_some, hchain]
    rfl
  | none =>
    have hshort : outcome.final.length ≤ j := by
      rw [hlen, ← Dice.length_fall roll.dice how source, ← hfallen]
      exact List.getElem?_eq_none_iff.mp hj
    rw [List.getElem?_eq_none hshort]
    rfl

/-- No step reaches a die that no group targets, if there are none for every die. -/
theorem Roll.stepsAt_eq_nil {roll : Roll} {position : Nat} (hsteps : roll.steps = [])
    (hgroups : ∀ group ∈ roll.groups, position ∉ group.targets) :
    roll.stepsAt position = [] := by
  unfold stepsAt
  rw [hsteps, List.nil_append, List.flatMap_eq_nil_iff]
  intro group hgroup
  exact if_neg (hgroups group hgroup)

/-- **Sweep by sweep is die by die.**  An evaluation is one pass over the values as they fell, which
    takes each value through the steps that reach its die and blames the only fault there is.
    Where it succeeds there is a value for each die, it depends on no other die, and it is the value
    as it fell where no step reaches it. -/
theorem Roll.evaluate_dieByDie (roll : Roll) (how : Fall) (source : WordSource) :
    (roll.evaluate how source).1 =
      (eachDie (fun position => Step.chain (roll.stepsAt position)) 1
        (roll.dice.fall how source).1).map
        (fun final => ⟨roll.source, final, (roll.dice.fall how source).1⟩) ∧
    ∀ outcome, (roll.evaluate how source).1 = .ok outcome →
      outcome.fallen = (roll.dice.fall how source).1 ∧
      outcome.fallen.length = roll.dice.count ∧ outcome.final.length = roll.dice.count ∧
      (∀ (j : Nat) (value : Binary64), outcome.fallen[j]? = some value →
        ∃ after, outcome.final[j]? = some after ∧
          Step.chain (roll.stepsAt (j + 1)) value = .ok after) ∧
      (∀ how' source' outcome', (roll.evaluate how' source').1 = .ok outcome' →
        ∀ j : Nat, outcome'.fallen[j]? = outcome.fallen[j]? →
          outcome'.final[j]? = outcome.final[j]?) ∧
      (roll.steps = [] → ∀ j : Nat, (∀ group ∈ roll.groups, j + 1 ∉ group.targets) →
        outcome.final[j]? = outcome.fallen[j]?) := by
  refine ⟨by rw [evaluate_eq], fun outcome h => ?_⟩
  obtain ⟨hfallen, hlen, hat⟩ := evaluate_eq_ok h
  refine ⟨hfallen, ?_, hlen, hat, ?_, ?_⟩
  · rw [hfallen]
    exact Dice.length_fall _ _ _
  · intro how' source' outcome' h' j hj
    rw [final_getElem? h', final_getElem? h, hj]
  · intro hsteps j hgroups
    rw [final_getElem? h, stepsAt_eq_nil hsteps hgroups]
    cases outcome.fallen[j]? with
    | none => rfl
    | some value => rfl

/-- Three dice on their lowest, with two groups that overlap at the second die and have targets that
    no die is at. -/
theorem Roll.evaluate_dieByDie_overlap :
    let roll : Roll := ⟨[], ⟨3, 1, 6⟩, [⟨.add, 2⟩],
      [⟨[0, 1, 2, 9], [⟨.multiply, 2⟩]⟩, ⟨[2], [⟨.subtract, 1⟩]⟩], .plain⟩
    (roll.evaluate .lowest (.ofSeed [] 0)).1 = .ok ⟨[], [6, 5, 3], [1, 1, 1]⟩ ∧
    Step.chain (roll.stepsAt 2) 1 = .ok 5 := by
  intro roll
  have hrun : (roll.evaluate .lowest (.ofSeed [] 0)).1 = .ok ⟨[], [6, 5, 3], [1, 1, 1]⟩ := by
    decide +kernel
  obtain ⟨_, _, _, hat, _⟩ := (Roll.evaluate_dieByDie roll .lowest (.ofSeed [] 0)).2 _ hrun
  obtain ⟨after, hafter, hchain⟩ := hat 1 1 rfl
  obtain rfl : (5 : Binary64) = after := Option.some.inj hafter
  exact ⟨hrun, hchain⟩

end DiceNotation
