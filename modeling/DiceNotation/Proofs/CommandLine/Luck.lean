/-
  The colour of a report.

  A report opens with the colour of the mean of the positions of its rolls.  It is a colour of the
  scale from red to green as long as every way can be measured, and one that is not on the scale if
  a single one cannot (`report_luck`):

  1. Every roll of a report was read, so its position is a share or no number at all
     (`Envelope.position_iff`).
  2. The mean of shares is a share, and the colour of a share is on the scale.
  3. One position that is no number leaves no number for the sum, the mean and the hue.

  The second case does happen, and with finite sums alone (`report_luck_overflow`): two sums may be
  farther apart than the largest number.
-/
import DiceNotation.Proofs.Colour.Scale
import DiceNotation.Proofs.CommandLine.Blocks
import DiceNotation.Proofs.Evaluation.Position

namespace DiceNotation.CommandLine

open Text Binary64

/-! ## The rolls of a report -/

theorem rollOne_eq_ok {expression : Text} {source : WordSource} {rolled : Rolled}
    (h : (rollOne expression source).1 = .ok rolled) :
    Roll.read expression = .ok rolled.roll
      ∧ (rolled.roll.envelope source).1 = .ok rolled.envelope := by
  cases hread : Roll.read expression with
  | error fault =>
    rw [rollOne_of_unread hread] at h
    cases h
  | ok roll =>
    rw [rollOne_of_read hread] at h
    cases hrun : (roll.envelope source).1 with
    | error fault =>
      rw [hrun] at h
      cases h
    | ok envelope =>
      rw [hrun] at h
      obtain rfl := Except.ok.inj h
      exact ⟨rfl, hrun⟩

/-- Every expression has given one roll, which was read and has its envelope. -/
theorem rollEach_eq_ok {expressions : List Text} {source : WordSource} {rolls : List Rolled}
    (h : (rollEach expressions source).1 = .ok rolls) :
    rolls.length = expressions.length
      ∧ ∀ rolled ∈ rolls, ∃ expression source', Roll.read expression = .ok rolled.roll
        ∧ (rolled.roll.envelope source').1 = .ok rolled.envelope := by
  induction expressions generalizing source rolls with
  | nil =>
    obtain rfl := Except.ok.inj h
    exact ⟨rfl, fun rolled hrolled => absurd hrolled List.not_mem_nil⟩
  | cons expression rest ih =>
    rw [rollEach_cons] at h
    cases hone : (rollOne expression source).1 with
    | error failure =>
      rw [hone] at h
      cases h
    | ok first =>
      rw [hone] at h
      obtain ⟨others, hothers, rfl⟩ := map_eq_ok.mp h
      obtain ⟨hlength, hall⟩ := ih hothers
      refine ⟨congrArg Nat.succ hlength, fun rolled hrolled => ?_⟩
      rcases List.mem_cons.mp hrolled with rfl | hrolled
      · exact ⟨expression, source, rollOne_eq_ok hone⟩
      · exact hall rolled hrolled

theorem report_eq_ok {expressions : List Text} {limit : Nat} {source : WordSource} {output : Text}
    (h : (report expressions limit source).1 = .ok output) :
    ∃ rolls, (rollEach expressions source).1 = .ok rolls
      ∧ output = headline expressions (colourOf rolls) ++ ['\n'] ++ rolls.flatMap (·.block limit) := by
  obtain ⟨rolls, hrolls, rfl⟩ := map_eq_ok.mp h
  exact ⟨rolls, hrolls, rfl⟩

/-! ## The mean and its colour -/

section Mean

variable {rolls : List Rolled}

theorem mean?_eq (hne : rolls ≠ []) :
    Colour.mean? (rolls.map (·.envelope.position))
      = some (Binary64.sum (rolls.map (·.envelope.position)) / .ofInt rolls.length) := by
  cases rolls with
  | nil => exact absurd rfl hne
  | cons first others =>
    rw [← List.length_map (f := fun rolled : Rolled => rolled.envelope.position)]
    rfl

/-- Shares alone have a share for their mean, and its colour is on the scale. -/
theorem colourOf_onScale (hne : rolls ≠ [])
    (h : ∀ rolled ∈ rolls, IsShare rolled.envelope.position) :
    ∃ mean, Colour.mean? (rolls.map (·.envelope.position)) = some mean ∧ IsShare mean
      ∧ (colourOf rolls).OnScale := by
  have hshares : ∀ p ∈ rolls.map (·.envelope.position), IsShare p := by
    intro p hp
    obtain ⟨rolled, hrolled, rfl⟩ := List.mem_map.mp hp
    exact h rolled hrolled
  have hmean := isShare_mean (by simpa using hne) hshares
  rw [List.length_map] at hmean
  refine ⟨_, mean?_eq hne, hmean, ?_⟩
  unfold colourOf
  rw [mean?_eq hne]
  exact Colour.ofPosition_onScale hmean

/-- One position that is no number is enough for a colour off the scale. -/
theorem colourOf_nan (h : ∃ rolled ∈ rolls, rolled.envelope.position = nan) :
    Colour.mean? (rolls.map (·.envelope.position)) = some nan
      ∧ colourOf rolls = ⟨204, 0, 40⟩ := by
  obtain ⟨rolled, hrolled, hnan⟩ := h
  have hmem : nan ∈ rolls.map (·.envelope.position) := hnan ▸ List.mem_map_of_mem hrolled
  have hmean := mean?_eq (List.ne_nil_of_mem hrolled)
  rw [sum_eq_nan hmem, nan_div] at hmean
  refine ⟨hmean, ?_⟩
  unfold colourOf
  rw [hmean]
  exact Colour.ofPosition_nan

end Mean

/-! ## The report -/

/-- **The colour of a report is on the scale if every way can be measured, and else it is not.**
    Each roll of a report on one expression or more has a share for its position just if its way can
    be measured, and else no number.  If all can, the mean is a share and the report opens with a
    colour on the scale; if one cannot, the mean is no number and the colour is red without green. -/
theorem report_luck {expressions : List Text} (hne : expressions ≠ []) {limit : Nat}
    {source : WordSource} {output : Text}
    (h : (report expressions limit source).1 = .ok output) :
    ∃ rolls, (rollEach expressions source).1 = .ok rolls ∧ rolls.length = expressions.length
      ∧ (∃ rest, output = headline expressions (colourOf rolls) ++ ['\n'] ++ rest)
      ∧ (∀ rolled ∈ rolls,
          (IsShare rolled.envelope.position ↔ rolled.envelope.IsMeasured)
            ∧ (rolled.envelope.position = nan ↔ ¬ rolled.envelope.IsMeasured))
      ∧ ((∀ rolled ∈ rolls, rolled.envelope.IsMeasured) →
          ∃ mean, Colour.mean? (rolls.map (·.envelope.position)) = some mean ∧ IsShare mean
            ∧ (colourOf rolls).OnScale)
      ∧ ((∃ rolled ∈ rolls, ¬ rolled.envelope.IsMeasured) →
          Colour.mean? (rolls.map (·.envelope.position)) = some nan
            ∧ colourOf rolls = ⟨204, 0, 40⟩) := by
  obtain ⟨rolls, hrolls, houtput⟩ := report_eq_ok h
  obtain ⟨hlength, hread⟩ := rollEach_eq_ok hrolls
  have hsome : rolls ≠ [] := by
    rintro rfl
    exact hne (List.length_eq_zero_iff.mp hlength.symm)
  have hposition : ∀ rolled ∈ rolls,
      (IsShare rolled.envelope.position ↔ rolled.envelope.IsMeasured)
        ∧ (rolled.envelope.position = nan ↔ ¬ rolled.envelope.IsMeasured) := by
    intro rolled hrolled
    obtain ⟨expression, source', hroll, hrun⟩ := hread rolled hrolled
    exact Envelope.position_iff hroll hrun
  refine ⟨rolls, hrolls, hlength, ⟨_, houtput⟩, hposition, ?_, ?_⟩
  · intro hall
    exact colourOf_onScale hsome fun rolled hrolled =>
      (hposition rolled hrolled).1.mpr (hall rolled hrolled)
  · rintro ⟨rolled, hrolled, hnot⟩
    exact colourOf_nan ⟨rolled, hrolled, (hposition rolled hrolled).2.mpr hnot⟩

/-- A die that shows three of six. -/
theorem report_luck_die :
    let source : WordSource := .ofSeed [6148914691236517206] 0
    let roll : Roll := ⟨"d6".toList, ⟨1, 1, 6⟩, [], [], .plain⟩
    let rolled : Rolled := ⟨roll, ⟨⟨roll.source, [3], [3]⟩, ⟨roll.source, [1], [1]⟩,
      ⟨roll.source, [6], [6]⟩⟩⟩
    [roll.source] ≠ [] ∧ (∃ output, (report [roll.source] 1024 source).1 = .ok output)
      ∧ (rollEach [roll.source] source).1 = .ok [rolled] ∧ rolled.envelope.IsMeasured
      ∧ IsShare rolled.envelope.position ∧ (colourOf [rolled]).OnScale := by
  intro source roll rolled
  have hne : [roll.source] ≠ [] := List.cons_ne_nil _ _
  have hrolled : (rollEach [roll.source] source).1 = .ok [rolled] := by decide +kernel
  have hmeasured : rolled.envelope.IsMeasured := by decide +kernel
  obtain ⟨output, houtput⟩ : ∃ output, (report [roll.source] 1024 source).1 = .ok output := by
    have hreport : (report [roll.source] 1024 source).1
        = (rollEach [roll.source] source).1.map fun rolls =>
          header [roll.source] rolls ++ rolls.flatMap (·.block 1024) := rfl
    rw [hrolled] at hreport
    exact ⟨_, hreport⟩
  obtain ⟨rolls, hrolls, -, -, hposition, hscale, -⟩ := report_luck hne houtput
  obtain rfl : rolls = [rolled] := Except.ok.inj (hrolls.symm.trans hrolled)
  have hall : ∀ other ∈ [rolled], other.envelope.IsMeasured := by
    intro other hother
    rw [List.mem_singleton.mp hother]
    exact hmeasured
  obtain ⟨mean, -, -, hcolour⟩ := hscale hall
  have hshare := (hposition rolled List.mem_cons_self).1.mpr hmeasured
  exact ⟨hne, ⟨output, houtput⟩, hrolled, hmeasured, hshare, hcolour⟩

/-- A die of three less two, times a number near the largest.  The three sums are finite, and the
    highest is farther from the lowest than any number is from zero. -/
theorem report_luck_overflow :
    let source : WordSource := .ofSeed [13835058055282163712] 0
    let far : Binary64 := Decimal.toBinary64 false ⟨17, 307⟩
    let roll : Roll := ⟨"d3-2*1.7e308".toList, ⟨1, 1, 3⟩, [⟨.subtract, 2⟩, ⟨.multiply, far⟩], [],
      .plain⟩
    let rolled : Rolled := ⟨roll, ⟨⟨roll.source, [far], [3]⟩, ⟨roll.source, [-far], [1]⟩,
      ⟨roll.source, [far], [3]⟩⟩⟩
    (rollEach [roll.source] source).1 = .ok [rolled]
      ∧ far.isFinite = true ∧ rolled.envelope.position = nan
      ∧ ¬ IsShare rolled.envelope.position
      ∧ colourOf [rolled] = ⟨204, 0, 40⟩ ∧ ¬ (colourOf [rolled]).OnScale := by
  decide +kernel

end DiceNotation.CommandLine
