/-
  Where the sum of a roll lies between its ends.

  The position of a sum is a share, a number from zero to one, or it is no number at all; nothing
  else happens (`position_of_measured`, `position_of_unmeasured`).  Which of the two it is depends
  on whether the way from the lowest sum can be measured:

  1. If the two ends are the same number, the position is one.
  2. Otherwise it is a quotient, of the way to the sum by chance and the whole way.  As long as the
     first is finite it is a share, even where the second has become infinite.
  3. If the first is infinite, the second is infinite as well, for rounding keeps their order, and
     infinity by infinity is not a number.  Three finite sums are enough for that: two of them can
     be farther apart than the largest number.

  For the roll this rests on the order of the three sums, which holds for any two of them that are
  numbers (`Roll.envelope_ordered`), whatever the third one is.
-/
import DiceNotation.Proofs.Binary64.Shares
import DiceNotation.Proofs.Evaluation.Bounds

namespace DiceNotation

open Binary64

/-! ## What is not a number -/

namespace Binary64

variable {x y : Binary64}

theorem nan_div (x : Binary64) : nan / x = nan :=
  rfl

theorem div_nan (x : Binary64) : x / nan = nan := by
  cases x with
  | nan => rfl
  | infinite s => rfl
  | finite s m hm => rfl

/-- A difference that is finite is one of finite numbers. -/
theorem isFinite_of_sub (h : (x - y).isFinite = true) : x.isFinite = true ∧ y.isFinite = true := by
  cases x with
  | nan => cases h
  | infinite s =>
    cases y with
    | nan => cases h
    | infinite t =>
      change (if s == !t then infinite s else nan).isFinite = true at h
      split at h
      · cases h
      · cases h
    | finite t n hn => cases h
  | finite s m hm =>
    cases y with
    | nan => cases h
    | infinite t => cases h
    | finite t n hn => exact ⟨rfl, rfl⟩

/-- Only a finite number can be divided by an infinite one. -/
theorem div_eq_nan (hx : x.isFinite = false) (hy : y.isFinite = false) : x / y = nan := by
  cases x with
  | nan => rfl
  | finite s m hm => cases hx
  | infinite s =>
    cases y with
    | nan => rfl
    | infinite t => rfl
    | finite t n hn => cases hy

theorem sub_ne_nan_of_left (hx : x ≠ nan) (hy : y.isFinite = true) : x - y ≠ nan := by
  obtain ⟨t, n, hn, rfl⟩ := isFinite_iff.mp hy
  cases x with
  | nan => exact absurd rfl hx
  | infinite s => exact fun h => nomatch h
  | finite s m hm => exact sub_ne_nan rfl rfl

/-- The way up from a finite number is not below zero. -/
theorem zero_atMost_sub (hx : x.isFinite = true) (hxy : x.atMost y = true) :
    (0 : Binary64).atMost (y - x) = true := by
  have hself : (0 : Binary64).atMost (x - x) = true :=
    atMost_iff.mpr ⟨_, _, rank?_zero, rank?_sub_self hx, Int.le_refl 0⟩
  have hy := (ne_nan_of_atMost hxy).2
  exact atMost_trans hself (sub_atMost_sub hxy (ne_nan_of_isFinite hx) (sub_ne_nan hx hx)
    (sub_ne_nan_of_left hy hx))

end Binary64

/-! ## Positions -/

section Position

variable {low high value : Binary64}

/-- The way from the lower end can be measured: there is none to go, or it is finite. -/
def Measured (low high value : Binary64) : Prop :=
  high.sameNumber low = true ∨ (high ≠ nan ∧ (value - low).isFinite = true)

instance : Decidable (Measured low high value) :=
  inferInstanceAs (Decidable (_ ∨ _))

/-- Two numbers are in order, if they are two numbers. -/
def Ordered (x y : Binary64) : Prop :=
  x ≠ nan → y ≠ nan → x.atMost y = true

/-- Between its ends a position is one or a quotient. -/
theorem position_eq (hlow : Ordered low value) (hhigh : Ordered value high) :
    position low high value =
      if high.sameNumber low then 1 else (value - low) / (high - low) := by
  unfold position
  rw [below_eq_false fun hv hl => hlow hl hv, below_eq_false fun hh hv => hhigh hv hh]
  rfl

/-- **Where the way can be measured the position is a share.** -/
theorem position_of_measured (hlow : Ordered low value) (hhigh : Ordered value high)
    (h : Measured low high value) : IsShare (position low high value) := by
  rw [position_eq hlow hhigh]
  cases hsame : high.sameNumber low with
  | true => exact (by decide +kernel : IsShare 1)
  | false =>
    obtain ⟨hnum, hway⟩ : high ≠ nan ∧ (value - low).isFinite = true := by
      rcases h with h | h
      · rw [hsame] at h
        cases h
      · exact h
    obtain ⟨hvalue, hbase⟩ := isFinite_of_sub hway
    have hbasenan := ne_nan_of_isFinite hbase
    have hvaluenan := ne_nan_of_isFinite hvalue
    have hwhole := sub_ne_nan_of_left hnum hbase
    apply isShare_div
    · exact zero_atMost_sub hbase (hlow hbasenan hvaluenan)
    · exact hway
    · exact sub_atMost_sub (hhigh hvaluenan hnum) hbasenan (sub_ne_nan hvalue hbase) hwhole
    · cases hfinite : high.isFinite with
      | true => exact isZero_sub hfinite hbase hsame
      | false =>
        -- an end that is infinite stays so
        obtain ⟨t, n, hn, rfl⟩ := isFinite_iff.mp hbase
        cases high with
        | nan => exact absurd rfl hnum
        | infinite s => rfl
        | finite s m hm => cases hfinite

/-- **Where it cannot the position is no number.** -/
theorem position_of_unmeasured (hlow : Ordered low value) (hhigh : Ordered value high)
    (h : ¬ Measured low high value) : position low high value = nan := by
  obtain ⟨hsame, hway⟩ := not_or.mp h
  rw [position_eq hlow hhigh, if_neg hsame]
  by_cases hvaluenan : value = nan
  · subst hvaluenan
    exact nan_div _
  by_cases hnum : high = nan
  · subst hnum
    exact div_nan _
  have hinfinite : (value - low).isFinite = false := by
    cases hfinite : (value - low).isFinite with
    | false => rfl
    | true => exact absurd ⟨hnum, hfinite⟩ hway
  apply div_eq_nan hinfinite
  cases hwhole : (high - low).isFinite with
  | false => rfl
  | true =>
    -- then the sum is finite, and the way to it is no longer than the whole way
    obtain ⟨hend, hbase⟩ := isFinite_of_sub hwhole
    have hbasenan := ne_nan_of_isFinite hbase
    have hbelow := hlow hbasenan hvaluenan
    have habove := hhigh hvaluenan hnum
    have hvalue : value.isFinite = true := Between.isFinite ⟨hbelow, habove⟩ hbase hend
    have hway' : Between 0 (high - low) (value - low) :=
      ⟨zero_atMost_sub hbase hbelow,
        sub_atMost_sub habove hbasenan (sub_ne_nan hvalue hbase) (ne_nan_of_isFinite hwhole)⟩
    rw [hway'.isFinite isShare_ends.1 hwhole] at hinfinite
    cases hinfinite

end Position

/-! ## The envelope of a roll that was read -/

/-- Dice at their lowest fall no higher than by any other fall, and at their highest no lower. -/
theorem Dice.fall_ends {dice : Dice} (h : dice.low ≤ dice.high) (how : Fall)
    (source source' : WordSource) :
    (∀ x ∈ (dice.fall .lowest source).1, ∀ y ∈ (dice.fall how source').1, x.atMost y = true)
      ∧ ∀ x ∈ (dice.fall how source').1, ∀ y ∈ (dice.fall .highest source).1,
          x.atMost y = true := by
  constructor
  · intro x hx y hy
    obtain ⟨i, hxi, -, -, hi, -⟩ := fall_bounds h .lowest source x hx
    obtain ⟨k, hyk, hlow, -⟩ := fall_bounds h how source' y hy
    rw [hxi, hyk, hi rfl]
    exact ofInt_atMost_ofInt hlow
  · intro x hx y hy
    obtain ⟨i, hxi, -, hhigh, -⟩ := fall_bounds h how source' x hx
    obtain ⟨k, hyk, -, -, -, hk⟩ := fall_bounds h .highest source y hy
    rw [hxi, hyk, hk rfl]
    exact ofInt_atMost_ofInt hhigh

namespace Roll

variable {roll : Roll}

/-- **Runs whose dice are in order have their sums in order.** -/
theorem sums_ordered {s : Text} (hread : read s = .ok roll) {first second : Fall}
    {source source' : WordSource} {lower upper : Outcome}
    (hlower : (roll.evaluate first source).1 = .ok lower)
    (hupper : (roll.evaluate second source').1 = .ok upper)
    (hfall : ∀ x ∈ (roll.dice.fall first source).1, ∀ y ∈ (roll.dice.fall second source').1,
      x.atMost y = true) : Ordered lower.sum upper.sum := by
  have hlen := (evaluate_eq_ok hlower).2.1
  have hlen' := (evaluate_eq_ok hupper).2.1
  exact sum_atMost_sum (hlen.trans hlen'.symm)
    (final_atMost (plain_of_read hread) hlower hupper hfall)

/-- Any two of the three sums of an envelope are in order, if they are numbers. -/
theorem envelope_ordered {s : Text} (hread : read s = .ok roll) {source : WordSource}
    {envelope : Envelope} (h : (roll.envelope source).1 = .ok envelope) :
    Ordered envelope.lowest.sum envelope.chance.sum
      ∧ Ordered envelope.chance.sum envelope.highest.sum := by
  obtain ⟨hchance, ⟨source₁, hlowest⟩, source₂, hhighest⟩ := envelope_eq_ok h
  have hdice : roll.dice.low ≤ roll.dice.high := by
    obtain ⟨-, core, -, hdice, -, -⟩ := read_eq_ok hread
    exact Dice.low_le_high_of_read hdice
  constructor
  · exact sums_ordered hread hlowest hchance (Dice.fall_ends hdice .chance source₁ source).1
  · exact sums_ordered hread hchance hhighest (Dice.fall_ends hdice .chance source₂ source).2

end Roll

namespace Envelope

/-- The way from the lowest sum to the sum by chance can be measured. -/
def IsMeasured (envelope : Envelope) : Prop :=
  Measured envelope.lowest.sum envelope.highest.sum envelope.chance.sum

instance (envelope : Envelope) : Decidable envelope.IsMeasured :=
  inferInstanceAs (Decidable (Measured _ _ _))

/-- **A position is a share just where the way can be measured, and else no number.** -/
theorem position_iff {roll : Roll} {s : Text} (hread : Roll.read s = .ok roll)
    {source : WordSource} {envelope : Envelope}
    (h : (roll.envelope source).1 = .ok envelope) :
    (IsShare envelope.position ↔ envelope.IsMeasured)
      ∧ (envelope.position = nan ↔ ¬ envelope.IsMeasured) := by
  obtain ⟨hlow, hhigh⟩ := Roll.envelope_ordered hread h
  by_cases hmeasured : envelope.IsMeasured
  · have hshare : IsShare envelope.position := position_of_measured hlow hhigh hmeasured
    exact ⟨iff_of_true hshare hmeasured, iff_of_false hshare.ne_nan (not_not_intro hmeasured)⟩
  · have hnan : envelope.position = nan := position_of_unmeasured hlow hhigh hmeasured
    exact ⟨iff_of_false (fun hshare => hshare.ne_nan hnan) hmeasured, iff_of_true hnan hmeasured⟩

end Envelope

end DiceNotation
