/-
  Words from any generator.

  A `WordSource` is a queue of words with one certain generator behind it, and every draw from it ends.
  Of a generator at large THAT ITS DRAWS END is an assumption, and it is the only one made here: a run
  that ends has taken finitely many words, and is a run over a queue that begins with them.

  1. For one draw this is `WordSource.Drawn.draw`.
  2. `Dice.Thrown` is a number of dice, drawn one after another.  They show what falls by chance from
     the queue (`Dice.Thrown.byChance_eq`).
  3. `Roll.Evaluated` is an evaluation by chance.  It comes to what `Roll.evaluate` comes to with the
     words queued, and leaves what is queued behind them (`Roll.Evaluated.evaluate_eq`).

  So what holds of every source holds of every generator, as far as its runs end.  The roll alone
  decides when an evaluation fails (`Roll.Evaluated.fails_iff`), and the dice alone decide which words
  are taken (`Roll.Evaluated.words_congr`).
-/
import DiceNotation.Proofs.Evaluation.Chance

namespace DiceNotation

open Binary64

universe u

variable {σ : Type u} {step : σ → UInt64 × σ} {state rest : σ} {words : List UInt64}

/-! ## One die after another -/

namespace Dice

variable {dice : Dice} {count : Nat} {shown : List Int64}

/-- A number of dice that are drawn one after another: from a state, with the words that are taken, to
    the integers that the dice show and the state after them. -/
inductive Thrown (step : σ → UInt64 × σ) (dice : Dice) :
    Nat → σ → List UInt64 → List Int64 → σ → Prop
  | none {state : σ} : Thrown step dice 0 state [] [] state
  | die {count : Nat} {state mid rest : σ} {words more : List UInt64} {i : Int64}
      {shown : List Int64}
      (hfirst : WordSource.Drawn step dice.low dice.high state words i mid)
      (hothers : Thrown step dice count mid more shown rest) :
      Thrown step dice (count + 1) state (words ++ more) (i :: shown) rest

/-- The values of integers that dice show. -/
def valuesOf (shown : List Int64) : List Binary64 :=
  shown.map fun i => ofInt i.toInt

/-- **Dice that are thrown fall as by chance from a queue.**  Induction on the dice; the first one
    leaves the words of the others in the queue. -/
theorem Thrown.byChance_eq (hbounds : dice.low ≤ dice.high)
    (h : Thrown step dice count state words shown rest) (queue : List UInt64) (seed : UInt64)
    (taken : Nat) :
    dice.byChance count ⟨words ++ queue, seed, taken⟩
      = (valuesOf shown, ⟨queue, seed, taken + words.length⟩) := by
  induction h generalizing taken with
  | none => rfl
  | @die count state mid rest words more i shown hfirst _ ih =>
    have hdraw := (WordSource.draw_iff hbounds).mp (hfirst.draw (more ++ queue) seed taken)
    rw [List.append_assoc, byChance_succ, hdraw, ih, List.length_append, Nat.add_assoc]
    rfl

/-- Dice are thrown in one way only, and take the same words. -/
theorem Thrown.unique {shown' : List Int64} {rest' : σ} {words' : List UInt64}
    (h : Thrown step dice count state words shown rest)
    (h' : Thrown step dice count state words' shown' rest') :
    words = words' ∧ shown = shown' ∧ rest = rest' := by
  induction h generalizing words' shown' with
  | none =>
    cases h'
    exact ⟨rfl, rfl, rfl⟩
  | die hfirst _ ih =>
    cases h' with
    | die hfirst' hothers' =>
      obtain ⟨rfl, rfl, rfl⟩ := hfirst.unique hfirst'
      obtain ⟨rfl, rfl, rfl⟩ := ih hothers'
      exact ⟨rfl, rfl, rfl⟩

end Dice

/-! ## Evaluations -/

namespace Roll

variable {roll other : Roll} {result result' : Except Fault Outcome}

/-- An evaluation by chance that ends: the dice are thrown, and every step is applied to what they
    show. -/
inductive Evaluated (step : σ → UInt64 × σ) (roll : Roll) (state : σ) (words : List UInt64)
    (rest : σ) : Except Fault Outcome → Prop
  | thrown {shown : List Int64}
      (h : Dice.Thrown step roll.dice roll.dice.count state words shown rest) :
      Evaluated step roll state words rest
        ((roll.modify (Dice.valuesOf shown)).toExcept.map fun final =>
          ⟨roll.source, final, Dice.valuesOf shown⟩)

/-- **An evaluation that ends is one over a queue**, whatever generator the words are from and
    whatever stands behind them in the queue. -/
theorem Evaluated.evaluate_eq (hbounds : roll.dice.low ≤ roll.dice.high)
    (h : Evaluated step roll state words rest result) (queue : List UInt64) (seed : UInt64)
    (taken : Nat) :
    roll.evaluate .chance ⟨words ++ queue, seed, taken⟩
      = (result, ⟨queue, seed, taken + words.length⟩) := by
  cases h with
  | thrown hthrown =>
    have hfall : roll.dice.fall .chance ⟨words ++ queue, seed, taken⟩ = _ :=
      hthrown.byChance_eq hbounds queue seed taken
    rw [evaluate, hfall]

/-- The roll alone decides whether it fails. -/
theorem Evaluated.fails_iff (hbounds : roll.dice.low ≤ roll.dice.high)
    (hsome : 1 ≤ roll.dice.count) (h : Evaluated step roll state words rest result) :
    result = .error .divisionByZero ↔ roll.DividesByZero := by
  have hrun := h.evaluate_eq hbounds [] 0 0
  rw [← exists_stepsAt_iff hsome, ← evaluate_fails_iff_stepsAt, hrun]

/-- Rolls of the same dice take the same words, even if one of them fails. -/
theorem Evaluated.words_congr {rest' : σ} {words' : List UInt64} (hdice : roll.dice = other.dice)
    (h : Evaluated step roll state words rest result)
    (h' : Evaluated step other state words' rest' result') : words = words' ∧ rest = rest' := by
  cases h with
  | thrown hthrown =>
    cases h' with
    | thrown hthrown' =>
      rw [← hdice] at hthrown'
      obtain ⟨rfl, -, rfl⟩ := hthrown.unique hthrown'
      exact ⟨rfl, rfl⟩

end Roll

end DiceNotation
