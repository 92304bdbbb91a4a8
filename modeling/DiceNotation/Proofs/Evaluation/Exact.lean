/-
  What a die shows, and its value.

  A die shows an integer within its bounds; its value is a binary64 number, and there are integers of
  64 bits that are none.  This file says what is left of the integer and of the bounds in the value.

  1. Every value is an integer again: the one that a die shows, rounded (`fall_rounded`).  The bounds
     are rounded alike, and between the rounded bounds it stays.
  2. At their highest all dice have the upper bound as their value JUST IF it has no more than 53 bits,
     and the same goes for the lower bound at their lowest.
  3. By chance all values lie within the bounds JUST IF neither bound is rounded to outside of them
     (`chance_contains_iff`): each bound is shown by some die, for the right words
     (`exists_fall_of_bounds`).

  Up to 2^53 nothing is rounded at all.  Beyond it the values of dice can be outside of their bounds,
  and for bounds close to each other they often are (`fall_exact_outside`).
-/
import DiceNotation.Proofs.Binary64.Integer
import DiceNotation.Proofs.Words.Sampling

namespace DiceNotation.Dice

open Binary64

variable {dice : Dice} {value : Binary64} {i : Int}

/-! ## Values are rounded integers -/

/-- The value is an integer within the bounds of the dice. -/
def Contains (dice : Dice) (value : Binary64) : Prop :=
  ∃ v, value.toInt? = some v ∧ dice.low.toInt ≤ v ∧ v ≤ dice.high.toInt

/-- What lies between two integers of 64 bits is no larger than they are. -/
theorem natAbs_le_of_bounds (hlow : dice.low.toInt ≤ i) (hhigh : i ≤ dice.high.toInt) :
    i.natAbs ≤ 2 ^ 64 := by
  have hmin := dice.low.le_toInt
  have hmax := dice.high.toInt_lt
  omega

/-- **The value of a die is the integer that it shows, rounded.** -/
theorem fall_rounded (h : dice.low ≤ dice.high) (how : Fall) (source : WordSource)
    (hvalue : value ∈ (dice.fall how source).1) :
    ∃ shown : Int, dice.low.toInt ≤ shown ∧ shown ≤ dice.high.toInt ∧
      (how = .lowest → shown = dice.low.toInt) ∧ (how = .highest → shown = dice.high.toInt) ∧
      value.toInt? = some (rounded shown) ∧ rounded dice.low.toInt ≤ rounded shown ∧
      rounded shown ≤ rounded dice.high.toInt := by
  obtain ⟨shown, heq, hlow, hhigh, hlowest, hhighest⟩ := fall_bounds h how source value hvalue
  have hshown := natAbs_le_of_bounds hlow hhigh
  have hint : value.toInt? = some (rounded shown) := by rw [heq, toInt?_ofInt hshown]
  exact ⟨shown, hlow, hhigh, hlowest, hhighest, hint,
    rounded_mono (natAbs_toInt_le _) hshown hlow, rounded_mono hshown (natAbs_toInt_le _) hhigh⟩

/-! ## At the ends -/

/-- A value that all dice have is exact just if the integer is. -/
theorem forall_replicate_iff {count : Nat} (hcount : 1 ≤ count) (x : Int64) :
    (∀ value ∈ List.replicate count (ofInt x.toInt), value.toInt? = some x.toInt) ↔
      IsExact x.toInt := by
  rw [← rounded_eq_self_iff, ← Option.some_inj, ← toInt?_ofInt (natAbs_toInt_le x)]
  constructor
  · intro h
    exact h _ (List.mem_replicate.mpr ⟨by omega, rfl⟩)
  · intro h value hvalue
    rw [List.eq_of_mem_replicate hvalue]
    exact h

/-! ## By chance -/

/-- **Each integer within the bounds is shown by some die**, for the right words. -/
theorem exists_fall_of_bounds (hcount : 1 ≤ dice.count) (hlow : dice.low.toInt ≤ i)
    (hhigh : i ≤ dice.high.toInt) : ∃ source, ofInt i ∈ (dice.fall .chance source).1 := by
  obtain ⟨source, hsource⟩ := WordSource.exists_between_eq hlow hhigh
  refine ⟨source, ?_⟩
  obtain ⟨others, hothers⟩ : ∃ others, dice.count = others + 1 := ⟨dice.count - 1, by omega⟩
  show ofInt i ∈ (dice.byChance dice.count source).1
  rw [hothers, byChance, ← hsource]
  exact List.mem_cons_self

/-- **By chance the values stay within the bounds just if rounding leaves the bounds there.** -/
theorem chance_contains_iff (hcount : 1 ≤ dice.count) (h : dice.low ≤ dice.high) :
    (∀ source, ∀ value ∈ (dice.fall .chance source).1, dice.Contains value) ↔
      dice.low.toInt ≤ rounded dice.low.toInt ∧ rounded dice.high.toInt ≤ dice.high.toInt := by
  have hle : dice.low.toInt ≤ dice.high.toInt := Int64.le_iff_toInt_le.mp h
  constructor
  · intro hall
    obtain ⟨source, hmem⟩ := exists_fall_of_bounds hcount (Int.le_refl _) hle
    obtain ⟨v, hv, hlow, -⟩ := hall source _ hmem
    obtain ⟨source', hmem'⟩ := exists_fall_of_bounds hcount hle (Int.le_refl _)
    obtain ⟨w, hw, -, hhigh⟩ := hall source' _ hmem'
    rw [toInt?_ofInt (natAbs_toInt_le _)] at hv hw
    obtain rfl := Option.some.inj hv
    obtain rfl := Option.some.inj hw
    exact ⟨hlow, hhigh⟩
  · rintro ⟨hlow, hhigh⟩ source value hvalue
    obtain ⟨shown, -, -, -, -, hint, habove, hbelow⟩ := fall_rounded h .chance source hvalue
    exact ⟨rounded shown, hint, Int.le_trans hlow habove, Int.le_trans hbelow hhigh⟩

/-! ## All of it -/

/-- **How exact the values of dice are.**  For dice that were made from two bounds or read from a
    clause, however they fall and whatever the words are:

    1. There is a value for each die.  It is an integer: one within the bounds, rounded, which moves it
       by at most half the distance of its neighbours; at the ends it is the bound, rounded.
    2. At the highest all values are the upper bound just if that has no more than 53 bits.
    3. At the lowest all values are the lower bound just if that has no more.
    4. By chance all values lie within the bounds, whatever the words, just if both bounds do so after
       they have been rounded.
    5. Up to 2^53 the values lie within the bounds and are the bounds at the ends. -/
theorem fall_exact (h : (∃ count a b, ofBounds count a b = .ok dice) ∨
      ∃ clause, read clause = .ok dice) :
    (∀ how source, (dice.fall how source).1.length = dice.count ∧
      ∀ value ∈ (dice.fall how source).1, ∃ shown : Int,
        dice.low.toInt ≤ shown ∧ shown ≤ dice.high.toInt ∧
        (how = .lowest → shown = dice.low.toInt) ∧ (how = .highest → shown = dice.high.toInt) ∧
        value.toInt? = some (rounded shown) ∧
        2 * (rounded shown - shown).natAbs ≤ spacing shown.natAbs) ∧
    (∀ source, (∀ value ∈ (dice.fall .highest source).1, value.toInt? = some dice.high.toInt) ↔
      IsExact dice.high.toInt) ∧
    (∀ source, (∀ value ∈ (dice.fall .lowest source).1, value.toInt? = some dice.low.toInt) ↔
      IsExact dice.low.toInt) ∧
    ((∀ source, ∀ value ∈ (dice.fall .chance source).1, dice.Contains value) ↔
      dice.low.toInt ≤ rounded dice.low.toInt ∧ rounded dice.high.toInt ≤ dice.high.toInt) ∧
    (dice.low.toInt.natAbs ≤ 2 ^ 53 → dice.high.toInt.natAbs ≤ 2 ^ 53 →
      ∀ how source, ∀ value ∈ (dice.fall how source).1, dice.Contains value ∧
        (how = .lowest → value.toInt? = some dice.low.toInt) ∧
        (how = .highest → value.toInt? = some dice.high.toInt)) := by
  obtain ⟨hcount, hbounds⟩ : 1 ≤ dice.count ∧ dice.low ≤ dice.high := by
    rcases h with ⟨count, a, b, hmade⟩ | ⟨clause, hread⟩
    · exact bounds_of_ofBounds hmade
    · exact bounds_of_read hread
  refine ⟨fun how source => ⟨length_fall dice how source, fun value hvalue => ?_⟩,
    fun source => forall_replicate_iff hcount dice.high,
    fun source => forall_replicate_iff hcount dice.low, chance_contains_iff hcount hbounds, ?_⟩
  · obtain ⟨shown, hlow, hhigh, hlowest, hhighest, hint, -, -⟩ :=
      fall_rounded hbounds how source hvalue
    exact ⟨shown, hlow, hhigh, hlowest, hhighest, hint, rounded_near shown⟩
  · intro hlow53 hhigh53 how source value hvalue
    obtain ⟨shown, hlow, hhigh, hlowest, hhighest, hint, -, -⟩ :=
      fall_rounded hbounds how source hvalue
    have hself : rounded shown = shown := rounded_eq_self_iff.mpr (isExact_of_le (by omega))
    rw [hself] at hint
    refine ⟨⟨shown, hint, hlow, hhigh⟩, fun hhow => ?_, fun hhow => ?_⟩
    · rw [hint, hlowest hhow]
    · rw [hint, hhighest hhow]

/-- Two dice whose upper bound needs 54 bits and is rounded down: at their highest they miss it, by
    chance they never leave their bounds.  And a die that was made with small bounds. -/
theorem fall_exact_upper :
    let dice : Dice := ⟨2, -3, 9007199254740993⟩
    let small : Dice := ⟨1, -10, 20⟩
    read "2d-3:9007199254740993".toList = .ok dice ∧
    (¬ ∀ value ∈ (dice.fall .highest (.ofSeed [] 0)).1, value.toInt? = some 9007199254740993) ∧
    (∀ value ∈ (dice.fall .lowest (.ofSeed [] 0)).1, value.toInt? = some (-3)) ∧
    (∀ source, ∀ value ∈ (dice.fall .chance source).1, dice.Contains value) ∧
    ofBounds 1 20 (-10) = .ok small ∧
    ∀ how source, ∀ value ∈ (small.fall how source).1, small.Contains value := by
  intro dice small
  have hread : read "2d-3:9007199254740993".toList = .ok dice := by decide +kernel
  have hmade : ofBounds 1 20 (-10) = .ok small := by decide +kernel
  obtain ⟨-, hhighest, hlowest, hchance, -⟩ := fall_exact (.inr ⟨_, hread⟩)
  obtain ⟨-, -, -, -, hsmall⟩ := fall_exact (.inl ⟨_, _, _, hmade⟩)
  refine ⟨hread, mt (hhighest (.ofSeed [] 0)).mp (by decide +kernel),
    (hlowest (.ofSeed [] 0)).mpr (by decide +kernel), hchance.mpr (by decide +kernel), hmade, ?_⟩
  intro how source value hvalue
  exact (hsmall (by decide +kernel) (by decide +kernel) how source value hvalue).1

/-- **The value of a die can be outside of its bounds.**  With the word zero the die shows its lower
    bound, which is rounded down; and at its highest a die can have a value that no integer of 64 bits
    is. -/
theorem fall_exact_outside :
    let dice : Dice := ⟨1, 9007199254740993, 9007199254740995⟩
    let widest : Dice := ⟨1, 1, 9223372036854775807⟩
    read "d9007199254740993:9007199254740995".toList = .ok dice ∧
    (dice.fall .chance (.ofSeed [0] 0)).1 = [9007199254740992] ∧
    ¬ dice.Contains 9007199254740992 ∧
    read "d9223372036854775807".toList = .ok widest ∧
    (widest.fall .highest (.ofSeed [] 0)).1 = [9223372036854775808] ∧
    ¬ widest.Contains 9223372036854775808 := by
  intro dice widest
  have houtside : ¬ dice.Contains 9007199254740992 := by
    rintro ⟨v, hv, hlow, -⟩
    have hint : (9007199254740992 : Binary64).toInt? = some 9007199254740992 := by decide +kernel
    obtain rfl := Option.some.inj (hint.symm.trans hv)
    exact absurd hlow (by decide +kernel)
  have hbeyond : ¬ widest.Contains 9223372036854775808 := by
    rintro ⟨v, hv, -, hhigh⟩
    have hint : (9223372036854775808 : Binary64).toInt? = some 9223372036854775808 := by
      decide +kernel
    obtain rfl := Option.some.inj (hint.symm.trans hv)
    exact absurd hhigh (by decide +kernel)
  exact ⟨by decide +kernel, by decide +kernel, houtside, by decide +kernel, by decide +kernel, hbeyond⟩

end DiceNotation.Dice
