/-
  Dice survive being written and read.

  A dice clause inside of an expression has no minus sign in it, because every minus sign is an
  operator there.  A clause on its own is freer: its bounds can be any two integers of 64 bits, in
  any order.  All dice that can be made of such bounds read back from what is written of them.

  1. What is written reads as dice that are made ANEW of the count and the bounds of the old ones
     (`Dice.read_text_eq_ofBounds`).  That holds of all dice, whatever the signs of their bounds are
     and whether or not the lower one is written.
  2. Making dice anew changes nothing (`Dice.ofBounds_idem`): the bounds are in order already.

  So dice read back exactly if they could have been made in the first place (`Dice.read_text_iff`).
-/
import DiceNotation.Proofs.Dice.Clause
import DiceNotation.Proofs.Roll.ReadBack

namespace DiceNotation.Dice

variable {dice : Dice} {count : Nat} {a b : Int64}

/-- **Dice that were made once are made again** of their own count and bounds. -/
theorem ofBounds_idem (h : ofBounds count a b = .ok dice) :
    ofBounds dice.count dice.low dice.high = .ok dice := by
  obtain ⟨hcount, hsame, hlow, hhigh⟩ := ofBounds_eq_ok_iff.mp h
  have horder : dice.low.toInt ≤ dice.high.toInt := by
    rw [hlow, hhigh]
    exact Int.le_trans (Int.min_le_left _ _) (Int.le_max_left _ _)
  refine ofBounds_eq_ok_iff.mpr ⟨by rwa [hsame], rfl, ?_, ?_⟩
  · exact (Int.min_eq_left horder).symm
  · exact (Int.max_eq_right horder).symm

/-- **The dice that read back are the dice that can be made.** -/
theorem read_text_iff : read dice.text = .ok dice ↔ ∃ count a b, ofBounds count a b = .ok dice := by
  rw [read_text_eq_ofBounds]
  constructor
  · intro h
    exact ⟨_, _, _, h⟩
  · rintro ⟨count, a, b, h⟩
    exact ofBounds_idem h

/-- **The dice clause round-trips.**  Whatever count is allowed and whatever two bounds are given, dice
    are made of them, with the bounds in ascending order, and they read back from what is written. -/
theorem ofBounds_roundTrip (hpos : 1 ≤ count) (hle : count ≤ 10000) (a b : Int64) :
    ∃ dice, ofBounds count a b = .ok dice ∧
      dice.count = count ∧ dice.low.toInt = min a.toInt b.toInt ∧
      dice.high.toInt = max a.toInt b.toInt ∧ read dice.text = .ok dice := by
  obtain ⟨dice, hmade⟩ : ∃ dice, ofBounds count a b = .ok dice := ⟨_, ofBounds_of_count hpos hle⟩
  obtain ⟨-, hcount, hlow, hhigh⟩ := ofBounds_eq_ok_iff.mp hmade
  exact ⟨dice, hmade, hcount, hlow, hhigh, read_text_iff.mpr ⟨count, a, b, hmade⟩⟩

/-- The most dice that are allowed, with the largest integer and the least as their bounds, in the
    wrong order; and a die from -5 to 1, of which no bound may be left out. -/
theorem ofBounds_roundTrip_extremes :
    let extreme : Dice := ⟨10000, Int64.minValue, Int64.maxValue⟩
    let crossing : Dice := ⟨1, -5, 1⟩
    1 ≤ 10000 ∧ 10000 ≤ 10000 ∧
    ofBounds 10000 Int64.maxValue Int64.minValue = .ok extreme ∧
    extreme.text = "10000d-9223372036854775808:9223372036854775807".toList ∧
    read extreme.text = .ok extreme ∧
    ofBounds 1 1 (-5) = .ok crossing ∧ crossing.text = "1d-5:1".toList ∧
    read crossing.text = .ok crossing := by
  intro extreme crossing
  have hleast : 1 ≤ 1 ∧ 1 ≤ 10000 := by decide
  have hmost : 1 ≤ 10000 ∧ 10000 ≤ 10000 := by decide
  have hextreme : ofBounds 10000 Int64.maxValue Int64.minValue = .ok extreme := by decide +kernel
  have hcrossing : ofBounds 1 1 (-5) = .ok crossing := by decide +kernel
  obtain ⟨made, hmade, -, -, -, hread⟩ :=
    ofBounds_roundTrip hmost.1 hmost.2 Int64.maxValue Int64.minValue
  obtain ⟨made', hmade', -, -, -, hread'⟩ := ofBounds_roundTrip hleast.1 hleast.2 1 (-5)
  obtain rfl : extreme = made := Except.ok.inj (hextreme.symm.trans hmade)
  obtain rfl : crossing = made' := Except.ok.inj (hcrossing.symm.trans hmade')
  exact ⟨hmost.1, hmost.2, hextreme, by decide +kernel, hread, hcrossing, by decide +kernel, hread'⟩

end DiceNotation.Dice
