/-
  What chance depends on.

  The dice of a roll fall before anything else happens, and nothing else takes a word.

  1. Each die is a draw from the source that the die before it left (`Dice.sourceAfter`).  So the
     values are a function of the bounds, the count and the source (`Dice.byChance_eq`), and fewer
     dice show a part of what more dice show (`Dice.byChance_prefix`).
  2. A step can fail, but only when the words are taken.  Two rolls of the same dice therefore leave
     the same source, even if one of them fails (`Roll.evaluate_source_congr`).
  3. Dice on their lowest or highest take no word, so an envelope takes exactly those that its run
     by chance takes.

  The source is any queue of words with one certain generator behind it, from which every draw ends.
  An evaluation over another generator, if it ends, is one with the words that it has taken in the
  queue (`Roll.Evaluated.evaluate_eq`).
-/
import DiceNotation.Proofs.Evaluation.Failure
import DiceNotation.Proofs.Words.Sampling

namespace DiceNotation

open Binary64

/-! ## One die after another -/

namespace Dice

/-- The source after a number of dice have been drawn from it. -/
def sourceAfter (dice : Dice) : Nat → WordSource → WordSource
  | 0, source => source
  | count + 1, source => dice.sourceAfter count (source.between dice.low dice.high).2

/-- The last die is drawn from what the dice before it have left. -/
theorem sourceAfter_succ (dice : Dice) (count : Nat) (source : WordSource) :
    dice.sourceAfter (count + 1) source
      = ((dice.sourceAfter count source).between dice.low dice.high).2 := by
  induction count generalizing source with
  | zero => rfl
  | succ count ih =>
    rw [sourceAfter, ih]
    rfl

theorem byChance_succ (dice : Dice) (count : Nat) (source : WordSource) :
    dice.byChance (count + 1) source =
      (ofInt (source.between dice.low dice.high).1
          :: (dice.byChance count (source.between dice.low dice.high).2).1,
        (dice.byChance count (source.between dice.low dice.high).2).2) := rfl

/-- **The dice are draws, one after another.** -/
theorem byChance_eq (dice : Dice) (count : Nat) (source : WordSource) :
    dice.byChance count source =
      ((List.range count).map fun k =>
          ofInt ((dice.sourceAfter k source).between dice.low dice.high).1,
        dice.sourceAfter count source) := by
  induction count generalizing source with
  | zero => rfl
  | succ count ih =>
    rw [byChance_succ, ih, List.range_succ_eq_map, List.map_cons, List.map_map]
    simp only [Function.comp_def, sourceAfter]

/-- **Fewer dice show what more dice show first.** -/
theorem byChance_prefix (dice : Dice) (source : WordSource) {count more : Nat}
    (h : count ≤ more) : (dice.byChance count source).1 <+: (dice.byChance more source).1 := by
  induction count generalizing more source with
  | zero => exact List.nil_prefix
  | succ count ih =>
    obtain ⟨more, rfl⟩ : ∃ m, more = m + 1 := ⟨more - 1, by omega⟩
    rw [byChance_succ, byChance_succ]
    exact List.cons_prefix_cons.mpr ⟨rfl, ih _ (by omega)⟩

/-- Only the bounds matter for how many dice fall how. -/
theorem byChance_congr {dice other : Dice} (hlow : dice.low = other.low)
    (hhigh : dice.high = other.high) (count : Nat) (source : WordSource) :
    dice.byChance count source = other.byChance count source := by
  induction count generalizing source with
  | zero => rfl
  | succ count ih =>
    rw [byChance_succ, byChance_succ, hlow, hhigh, ih]

end Dice

/-! ## Rolls of the same dice -/

namespace Roll

variable {roll other : Roll} {how : Fall} {source : WordSource}

/-- The words are taken whether the steps fail or not. -/
theorem evaluate_source (roll : Roll) (how : Fall) (source : WordSource) :
    (roll.evaluate how source).2 = (roll.dice.fall how source).2 := rfl

theorem evaluate_source_congr (h : roll.dice = other.dice) (how : Fall) (source : WordSource) :
    (roll.evaluate how source).2 = (other.evaluate how source).2 := by
  rw [evaluate_source, evaluate_source, h]

theorem evaluate_fallen_congr (h : roll.dice = other.dice) {outcome outcome' : Outcome}
    (hroll : (roll.evaluate how source).1 = .ok outcome)
    (hother : (other.evaluate how source).1 = .ok outcome') : outcome.fallen = outcome'.fallen := by
  rw [(evaluate_eq_ok hroll).1, (evaluate_eq_ok hother).1, h]

/-- An envelope takes the words of its run by chance, and no others. -/
theorem envelope_source (roll : Roll) (source : WordSource) :
    (roll.envelope source).2 = (roll.evaluate .chance source).2 := by
  rw [envelope_eq]

/-- **Chance depends on the dice and the source alone.**  Every die shows an integer within the
    bounds, which is the one that a draw from the source left by the die before it ends in; fewer
    dice show a part of what more dice show.  Rolls of the same dice take the same words and let the
    same values fall, whatever else they do and even if they fail.  At the lowest and at the highest
    no words are taken, so the run by chance in an envelope is the run by chance alone. -/
theorem chance_dependsOnDice :
    (∀ (dice : Dice) (source : WordSource), dice.low ≤ dice.high →
      (dice.fall .chance source).1.length = dice.count ∧
      (∀ k < dice.count, ∃ i : Int64,
        (∀ (j : Int64) (rest : WordSource),
          WordSource.Draw dice.low dice.high (dice.sourceAfter k source) j rest ↔
            j = i ∧ rest = dice.sourceAfter (k + 1) source) ∧
        dice.low ≤ i ∧ i ≤ dice.high ∧
        (dice.fall .chance source).1[k]? = some (ofInt i.toInt)) ∧
      dice.sourceAfter 0 source = source ∧
      (dice.fall .chance source).2 = dice.sourceAfter dice.count source ∧
      ∀ more : Dice, more.low = dice.low → more.high = dice.high → dice.count ≤ more.count →
        (dice.fall .chance source).1 <+: (more.fall .chance source).1) ∧
    (∀ (roll other : Roll) (source : WordSource), roll.dice = other.dice →
      (roll.evaluate .chance source).2 = (other.evaluate .chance source).2 ∧
      ∀ outcome outcome', (roll.evaluate .chance source).1 = .ok outcome →
        (other.evaluate .chance source).1 = .ok outcome' → outcome.fallen = outcome'.fallen) ∧
    ∀ (roll : Roll) (source : WordSource),
      (roll.evaluate .lowest source).2 = source ∧
      (roll.evaluate .highest source).2 = source ∧
      (roll.envelope source).1.map (·.chance) = (roll.evaluate .chance source).1 ∧
      (roll.envelope source).2 = (roll.evaluate .chance source).2 := by
  refine ⟨fun dice source h => ?_, fun roll other source h => ?_, fun roll source => ?_⟩
  · -- die `k` is what `between` says, and `between` says where the draw ends
    have hfall : dice.fall .chance source = dice.byChance dice.count source := rfl
    refine ⟨Dice.length_fall _ _ _, fun k hk => ?_, rfl, ?_, fun more hlow hhigh hcount => ?_⟩
    · obtain ⟨i, hi, hdraw⟩ := WordSource.draw_between h (dice.sourceAfter k source)
      rw [← Dice.sourceAfter_succ] at hdraw
      have hbounds := WordSource.Draw.bounds h hdraw
      refine ⟨i, fun j rest => ⟨fun hj => hj.unique hdraw, ?_⟩, hbounds.1, hbounds.2, ?_⟩
      · rintro ⟨rfl, rfl⟩
        exact hdraw
      · rw [hfall, Dice.byChance_eq, List.getElem?_map, List.getElem?_range hk, hi]
        rfl
    · rw [hfall, Dice.byChance_eq]
    · show (dice.byChance dice.count source).1 <+: (more.byChance more.count source).1
      rw [Dice.byChance_congr hlow hhigh]
      exact Dice.byChance_prefix dice source hcount
  · exact ⟨evaluate_source_congr h _ _, fun _ _ hroll hother => evaluate_fallen_congr h hroll hother⟩
  · exact ⟨rfl, rfl, envelope_chance roll source, envelope_source roll source⟩

/-- Two dice, of which the first is drawn with the second word because the first word may not be
    used.  A roll of them that fails takes the same three words as one that does not. -/
theorem chance_dependsOnDice_passedOver :
    let dice : Dice := ⟨2, 1, 6⟩
    let bare : Roll := ⟨"2d6".toList, dice, [], [], .plain⟩
    let failing : Roll := ⟨"2d6/0s".toList, dice, [⟨.divide, 0⟩], [], .sumOnly⟩
    let source : WordSource := .ofSeed [18446744073709551615, 9223372036854775808, 0, 7] 0
    dice.low ≤ dice.high ∧ bare.dice = failing.dice ∧
    (dice.fall .chance source).1.map toInt? = [some 4, some 1] ∧
    (∃ i : Int64, 1 ≤ i ∧ i ≤ 6 ∧ (dice.fall .chance source).1[0]? = some (ofInt i.toInt)) ∧
    (failing.evaluate .chance source).1 = .error .divisionByZero ∧
    (bare.evaluate .chance source).2 = (failing.evaluate .chance source).2 ∧
    (bare.evaluate .chance source).2 = ⟨[7], 0, 3⟩ := by
  intro dice bare failing source
  have hdice : dice.low ≤ dice.high := by decide
  have hsame : bare.dice = failing.dice := rfl
  obtain ⟨hfall, hrolls, -⟩ := chance_dependsOnDice
  obtain ⟨-, hdraws, -⟩ := hfall dice source hdice
  obtain ⟨i, -, hlow, hhigh, hshown⟩ := hdraws 0 (by decide)
  exact ⟨hdice, hsame, by decide +kernel, ⟨i, hlow, hhigh, hshown⟩, by decide +kernel,
    (hrolls bare failing source hsame).1, by decide +kernel⟩

/-- Where all 64-bit integers are in range, the word is the integer. -/
example :
    (WordSource.between Int64.minValue Int64.maxValue (.ofSeed [18446744073709551615] 0)).1 = -1 := by
  decide +kernel

end Roll

end DiceNotation
