/-
  The envelope of a roll that was read.

  Three runs of one roll are compared die by die: by chance, all dice at their lowest, all at their
  highest.

  1. As they fall, the values are in order, because a fair integer stays within its bounds
     (`between_bounds`, `Dice.fall_bounds`) and converting integers keeps the order.
  2. A step with a plain operand keeps the order of two values (`Step.apply_atMost`), and what is
     not a number stays so (`Step.apply_nan`).  So a chain of such steps keeps it wherever both
     values come out as numbers (`Step.chain_atMost`): nothing on the way was none.
  3. EVERY operand of a roll that was read is plain (`Roll.plain_of_read`), and the three runs take
     a die through the same steps.
  4. Sums follow from their terms.

  With a negative factor the second point would fail; it is the readers that never let one in.
-/
import DiceNotation.Envelope
import DiceNotation.Proofs.Dice.Clause
import DiceNotation.Proofs.Evaluation.DieByDie
import DiceNotation.Proofs.Roll.Composition
import DiceNotation.Proofs.Step.Scan

namespace DiceNotation

open Binary64

/-! ## Fair integers -/

/-- The integer that is drawn: the word itself, or the high half of its product with the range. -/
theorem WordSource.between_fst (low high : Int64) (source : WordSource) {range : Nat}
    (hrange : (high.toInt - low.toInt + 1).toNat = range) :
    (source.between low high).1 =
      if range = 2 ^ 64 then source.next.1.toInt64.toInt
      else low.toInt + ((source.nextUsable range).1.toNat * range / 2 ^ 64 : Nat) := by
  rw [between, hrange]
  -- the draw becomes a pair first, for comparing the two sides would run it otherwise
  generalize source.nextUsable range = drawn
  obtain ⟨word, rest⟩ := drawn
  split
  · rfl
  · rfl

/-- **A fair integer stays within its bounds.** -/
theorem WordSource.between_bounds {low high : Int64} (h : low ≤ high) (source : WordSource) :
    low.toInt ≤ (source.between low high).1 ∧ (source.between low high).1 ≤ high.toInt := by
  have hle : low.toInt ≤ high.toInt := Int64.le_iff_toInt_le.mp h
  have hlow := low.le_toInt
  have hhigh := high.toInt_lt
  obtain ⟨range, hrange⟩ : ∃ range, (high.toInt - low.toInt + 1).toNat = range := ⟨_, rfl⟩
  rw [between_fst low high source hrange]
  split
  · -- the range is all of the 64-bit integers, so the bounds are the ends
    have hwordlow := source.next.1.toInt64.le_toInt
    have hwordhigh := source.next.1.toInt64.toInt_lt
    omega
  · -- the high half of a product with the range is below the range
    have hpos : 0 < range := by omega
    generalize (source.nextUsable range).1 = word
    have hshare : word.toNat * range / 2 ^ 64 < range :=
      Nat.div_lt_of_lt_mul (Nat.mul_lt_mul_of_pos_right word.toNat_lt hpos)
    omega

/-! ## Values as they fall -/

theorem Dice.byChance_bounds {dice : Dice} (h : dice.low ≤ dice.high) (count : Nat)
    (source : WordSource) :
    ∀ value ∈ (dice.byChance count source).1,
      ∃ i, value = ofInt i ∧ dice.low.toInt ≤ i ∧ i ≤ dice.high.toInt := by
  induction count generalizing source with
  | zero => exact fun value hvalue => absurd hvalue List.not_mem_nil
  | succ count ih =>
    intro value hvalue
    rw [byChance] at hvalue
    rcases List.mem_cons.mp hvalue with heq | hvalue
    · exact ⟨(source.between dice.low dice.high).1, heq, WordSource.between_bounds h source⟩
    · exact ih _ value hvalue

/-- However the dice fall, each shows an integer within its bounds; at the lowest it is the lower
    bound, at the highest the upper. -/
theorem Dice.fall_bounds {dice : Dice} (h : dice.low ≤ dice.high) (how : Fall)
    (source : WordSource) :
    ∀ value ∈ (dice.fall how source).1,
      ∃ i, value = ofInt i ∧ dice.low.toInt ≤ i ∧ i ≤ dice.high.toInt ∧
        (how = .lowest → i = dice.low.toInt) ∧ (how = .highest → i = dice.high.toInt) := by
  have hle : dice.low.toInt ≤ dice.high.toInt := Int64.le_iff_toInt_le.mp h
  intro value hvalue
  cases how with
  | chance =>
    obtain ⟨i, hi, hlow, hhigh⟩ := byChance_bounds h _ _ value hvalue
    exact ⟨i, hi, hlow, hhigh, fun h => (nomatch h), fun h => (nomatch h)⟩
  | highest =>
    exact ⟨dice.high.toInt, List.eq_of_mem_replicate hvalue, hle, Int.le_refl _,
      fun h => (nomatch h), fun _ => rfl⟩
  | lowest =>
    exact ⟨dice.low.toInt, List.eq_of_mem_replicate hvalue, Int.le_refl _, hle, fun _ => rfl,
      fun h => (nomatch h)⟩

/-! ## Steps keep the order -/

namespace Step

variable {step : Step} {steps : List Step} {x y x' y' : Binary64}

/-- What is not a number stays so. -/
theorem apply_nan (h : step.apply nan = .ok x') : x' = nan := by
  obtain ⟨operator, operand⟩ := step
  cases operator with
  | add => exact (Except.ok.inj h).symm
  | subtract => exact (Except.ok.inj h).symm
  | multiply => exact (Except.ok.inj h).symm
  | divide =>
    simp only [apply, Operator.apply] at h
    split at h
    · cases h
    · exact (Except.ok.inj h).symm

theorem chain_nan (h : chain steps nan = .ok x') : x' = nan := by
  induction steps with
  | nil => exact (Except.ok.inj h).symm
  | cons step steps ih =>
    obtain ⟨z, hz, h⟩ := bind_eq_ok.mp (chain_cons _ _ _ ▸ h)
    rw [apply_nan hz] at h
    exact ih h

/-- **A step with a plain operand keeps the order**, one case for each operator. -/
theorem apply_atMost (hplain : step.operand.IsPlain) (hxy : x.atMost y = true)
    (hx : step.apply x = .ok x') (hy : step.apply y = .ok y') (hx' : x' ≠ nan) (hy' : y' ≠ nan) :
    x'.atMost y' = true := by
  obtain ⟨operator, operand⟩ := step
  cases operator with
  | add =>
    obtain rfl := Except.ok.inj hx
    obtain rfl := Except.ok.inj hy
    exact add_atMost_add hxy (atMost_refl hplain.ne_nan) hx' hy'
  | subtract =>
    obtain rfl := Except.ok.inj hx
    obtain rfl := Except.ok.inj hy
    exact sub_atMost_sub hxy hplain.ne_nan hx' hy'
  | multiply =>
    obtain rfl := Except.ok.inj hx
    obtain rfl := Except.ok.inj hy
    exact mul_atMost_mul hxy hplain hx' hy'
  | divide =>
    simp only [apply, Operator.apply] at hx hy
    cases hzero : operand.isZero with
    | true =>
      rw [hzero] at hx
      cases hx
    | false =>
      rw [hzero] at hx hy
      obtain rfl := Except.ok.inj hx
      obtain rfl := Except.ok.inj hy
      exact div_atMost_div hxy hplain hzero

/-- **A chain of such steps keeps the order** of what comes out as numbers. -/
theorem chain_atMost (hplain : ∀ step ∈ steps, step.operand.IsPlain) (hxy : x.atMost y = true)
    (hx : chain steps x = .ok x') (hy : chain steps y = .ok y') (hx' : x' ≠ nan) (hy' : y' ≠ nan) :
    x'.atMost y' = true := by
  induction steps generalizing x y with
  | nil =>
    obtain rfl := Except.ok.inj hx
    obtain rfl := Except.ok.inj hy
    exact hxy
  | cons step steps ih =>
    rw [chain_cons] at hx hy
    obtain ⟨u, hu, hx⟩ := bind_eq_ok.mp hx
    obtain ⟨v, hv, hy⟩ := bind_eq_ok.mp hy
    -- a value that is no number now would be none at the end
    have hunan : u ≠ nan := by
      rintro rfl
      exact hx' (chain_nan hx)
    have hvnan : v ≠ nan := by
      rintro rfl
      exact hy' (chain_nan hy)
    have huv : u.atMost v = true :=
      apply_atMost (hplain step List.mem_cons_self) hxy hu hv hunan hvnan
    exact ih (fun s hs => hplain s (List.mem_cons_of_mem _ hs)) huv hx hy

end Step

/-! ## Rolls that were read -/

/-- Dice that were made have a die at least, and bounds in order. -/
theorem Dice.bounds_of_ofBounds {count : Nat} {a b : Int64} {dice : Dice}
    (h : ofBounds count a b = .ok dice) : 1 ≤ dice.count ∧ dice.low ≤ dice.high := by
  obtain ⟨⟨hpos, -⟩, rfl, hlow, hhigh⟩ := ofBounds_eq_ok_iff.mp h
  refine ⟨hpos, Int64.le_iff_toInt_le.mpr ?_⟩
  omega

/-- So have dice that were read. -/
theorem Dice.bounds_of_read {clause : Text} {dice : Dice} (h : read clause = .ok dice) :
    1 ≤ dice.count ∧ dice.low ≤ dice.high := by
  have hmeans := means_read clause
  rw [h] at hmeans
  cases hmeans with
  | unwritten _ => decide
  | @dice _ _ _ _ _ low high _ _ hpos _ _ hlow hhigh =>
    refine ⟨hpos, Int64.le_iff_toInt_le.mpr ?_⟩
    show low.toInt ≤ high.toInt
    omega

/-- The bounds of dice that were read are in order. -/
theorem Dice.low_le_high_of_read {clause : Text} {dice : Dice} (h : read clause = .ok dice) :
    dice.low ≤ dice.high :=
  (bounds_of_read h).2

namespace Roll

variable {roll : Roll}

/-- No step of a roll that was read has an operand that is negative, infinite or not a number. -/
theorem plain_of_read {s : Text} (h : read s = .ok roll) (position : Nat) :
    ∀ step ∈ roll.stepsAt position, step.operand.IsPlain := by
  obtain ⟨-, core, -, -, hsteps, hgroups⟩ := read_eq_ok h
  intro step hstep
  rcases List.mem_append.mp hstep with hstep | hstep
  · exact Step.readAll_plain hsteps step hstep
  · obtain ⟨group, hgroup, hstep⟩ := List.mem_flatMap.mp hstep
    unfold Group.stepsAt at hstep
    split at hstep
    · exact Group.readAll_plain hgroups group hgroup step hstep
    · exact absurd hstep List.not_mem_nil

/-- **Two runs in order.**  If the values of one run are in order with those of another as they
    fall, they are in order at the end. -/
theorem final_atMost {first second : Fall} {source source' : WordSource}
    {lower upper : Outcome} (hplain : ∀ position, ∀ step ∈ roll.stepsAt position,
      step.operand.IsPlain)
    (hlower : (roll.evaluate first source).1 = .ok lower)
    (hupper : (roll.evaluate second source').1 = .ok upper)
    (hfall : ∀ x ∈ (roll.dice.fall first source).1, ∀ y ∈ (roll.dice.fall second source').1,
      x.atMost y = true)
    (j : Nat) (x y : Binary64) (hx : lower.final[j]? = some x) (hy : upper.final[j]? = some y)
    (hxnan : x ≠ nan) (hynan : y ≠ nan) : x.atMost y = true := by
  obtain ⟨hfallen, hlen, hat⟩ := evaluate_eq_ok hlower
  obtain ⟨hfallen', hlen', hat'⟩ := evaluate_eq_ok hupper
  have hj : j < roll.dice.count := by
    rw [← hlen]
    exact (List.getElem?_eq_some_iff.mp hx).1
  have hjl : j < lower.fallen.length := by
    rw [hfallen, Dice.length_fall]
    exact hj
  have hju : j < upper.fallen.length := by
    rw [hfallen', Dice.length_fall]
    exact hj
  obtain ⟨u, hu, hchain⟩ := hat j _ (List.getElem?_eq_getElem hjl)
  obtain ⟨v, hv, hchain'⟩ := hat' j _ (List.getElem?_eq_getElem hju)
  obtain rfl : x = u := Option.some.inj (hx.symm.trans hu)
  obtain rfl : y = v := Option.some.inj (hy.symm.trans hv)
  have hstart : lower.fallen[j].atMost upper.fallen[j] = true :=
    hfall _ (hfallen ▸ List.getElem_mem hjl) _ (hfallen' ▸ List.getElem_mem hju)
  exact Step.chain_atMost (hplain (j + 1)) hstart hchain hchain' hxnan hynan

/-- An envelope has three runs of its roll, by chance from the source that was given. -/
theorem envelope_eq_ok {source : WordSource} {envelope : Envelope}
    (h : (roll.envelope source).1 = .ok envelope) :
    (roll.evaluate .chance source).1 = .ok envelope.chance ∧
      (∃ source', (roll.evaluate .lowest source').1 = .ok envelope.lowest) ∧
      ∃ source', (roll.evaluate .highest source').1 = .ok envelope.highest := by
  unfold Roll.envelope at h
  rcases hchance : roll.evaluate .chance source with ⟨e | chance, source₁⟩
  · rw [hchance] at h
    exact nomatch h
  · rw [hchance] at h
    simp only at h
    rcases hlowest : roll.evaluate .lowest source₁ with ⟨e | lowest, source₂⟩
    · rw [hlowest] at h
      exact nomatch h
    · rw [hlowest] at h
      obtain ⟨highest, hhighest, rfl⟩ := map_eq_ok.mp h
      exact ⟨rfl, ⟨source₁, by rw [hlowest]⟩, ⟨source₂, hhighest⟩⟩

/-- **The envelope of a roll that was read bounds it**, at each die and in the sum, wherever numbers
    come out. -/
theorem envelope_bounds {s : Text} (hread : read s = .ok roll) {source : WordSource}
    {envelope : Envelope} (h : (roll.envelope source).1 = .ok envelope) :
    (envelope.lowest.final.length = roll.dice.count ∧
      envelope.chance.final.length = roll.dice.count ∧
      envelope.highest.final.length = roll.dice.count) ∧
    (∀ (j : Nat) (low value high : Binary64), envelope.lowest.final[j]? = some low →
      envelope.chance.final[j]? = some value → envelope.highest.final[j]? = some high →
      low ≠ nan → value ≠ nan → high ≠ nan →
      low.atMost value = true ∧ value.atMost high = true) ∧
    (envelope.lowest.sum ≠ nan → envelope.chance.sum ≠ nan → envelope.highest.sum ≠ nan →
      envelope.lowest.sum.atMost envelope.chance.sum = true ∧
        envelope.chance.sum.atMost envelope.highest.sum = true) := by
  obtain ⟨hchance, ⟨source₁, hlowest⟩, source₂, hhighest⟩ := envelope_eq_ok h
  have hdice : roll.dice.low ≤ roll.dice.high := by
    obtain ⟨-, core, -, hdice, -, -⟩ := read_eq_ok hread
    exact Dice.low_le_high_of_read hdice
  have hlen := (evaluate_eq_ok hchance).2.1
  have hlenlow := (evaluate_eq_ok hlowest).2.1
  have hlenhigh := (evaluate_eq_ok hhighest).2.1
  have hbelow := final_atMost (plain_of_read hread) hlowest hchance <| by
    intro x hx y hy
    obtain ⟨i, hxi, -, -, hi, -⟩ := Dice.fall_bounds hdice .lowest _ x hx
    obtain ⟨k, hyk, hlow, -, -, -⟩ := Dice.fall_bounds hdice .chance _ y hy
    rw [hxi, hyk, hi rfl]
    exact ofInt_atMost_ofInt hlow
  have habove := final_atMost (plain_of_read hread) hchance hhighest <| by
    intro x hx y hy
    obtain ⟨i, hxi, -, hhigh, -, -⟩ := Dice.fall_bounds hdice .chance _ x hx
    obtain ⟨k, hyk, -, -, -, hk⟩ := Dice.fall_bounds hdice .highest _ y hy
    rw [hxi, hyk, hk rfl]
    exact ofInt_atMost_ofInt hhigh
  refine ⟨⟨hlenlow, hlen, hlenhigh⟩, ?_, ?_⟩
  · intro j low value high hl hv hu hlnan hvnan hunan
    exact ⟨hbelow j low value hl hv hlnan hvnan, habove j value high hv hu hvnan hunan⟩
  · intro hlnan hvnan hunan
    exact ⟨sum_atMost_sum (hlenlow.trans hlen.symm) hbelow hlnan hvnan,
      sum_atMost_sum (hlen.trans hlenhigh.symm) habove hvnan hunan⟩

/-- A roll whose second die is doubled, divided by four and lessened by one, so that it can come
    to less than zero. -/
theorem envelope_bounds_halved :
    let roll : Roll := ⟨"2d6*2i2:/4-1".toList, ⟨2, 1, 6⟩, [⟨.multiply, 2⟩],
      [⟨[2], [⟨.divide, 4⟩, ⟨.subtract, 1⟩]⟩], .plain⟩
    read roll.source = .ok roll ∧ ∃ envelope,
      (roll.envelope (.ofSeed [9223372036854775808, 0] 0)).1 = .ok envelope ∧
      envelope.lowest.final = [2, -1 / 2] ∧ envelope.chance.final = [8, -1 / 2] ∧
      envelope.highest.final = [12, 2] ∧
      envelope.lowest.sum.atMost envelope.chance.sum = true ∧
      envelope.chance.sum.atMost envelope.highest.sum = true := by
  intro roll
  have hread : read roll.source = .ok roll := by decide +kernel
  have hrun : (roll.envelope (.ofSeed [9223372036854775808, 0] 0)).1 = .ok
      ⟨⟨roll.source, [8, -1 / 2], [4, 1]⟩, ⟨roll.source, [2, -1 / 2], [1, 1]⟩,
        ⟨roll.source, [12, 2], [6, 6]⟩⟩ := by decide +kernel
  obtain ⟨-, -, hsums⟩ := envelope_bounds hread hrun
  obtain ⟨hlow, hhigh⟩ := hsums (by decide +kernel) (by decide +kernel) (by decide +kernel)
  exact ⟨hread, _, hrun, rfl, rfl, rfl, hlow, hhigh⟩

end Roll

end DiceNotation
