/-
  What is printed of a number, read back and printed again.

  A finite value takes one of three ways to its text: what settles to a small integer goes through a
  word, an integer that is too large for one is written as it is, and so is a fraction.

  1. A value settles to an integer just if it is less than a billionth away from it
     (`toInt?_settle_iff`).  So it is known what the text reads back to: the integer if there is one so
     near, and else the value itself.
  2. Either is settled, and so it is printed as before (`exists_readBack`).
  3. No integer that goes through a word is too large for it, although it is compared with the largest
     one after that has been rounded up (`numberTextByWord_eq`).
  4. The zero below zero settles to zero, so its own text is never printed
     (`numberText_ne_minusZero`).

  `numberText_faithful` has all of this together.
-/
import DiceNotation.Proofs.Field.Reach

namespace DiceNotation

open Text Binary64

variable {value : Binary64} {i : Int}

/-! ## Near an integer -/

/-- The integer nearest to the value, and less than a billionth away from it. -/
def Nearly (value : Binary64) (i : Int) : Prop :=
  ∃ place, value.rank? = some place ∧
    (place - i * grainsPerOne).natAbs * 10 ^ 9 < grainsPerOne ∧
    ∀ j, j ≠ i → (place - i * grainsPerOne).natAbs < (place - j * grainsPerOne).natAbs

/-- What is so near is nearest. -/
theorem nearly_iff : Nearly value i ↔ ∃ place, value.rank? = some place ∧
    (place - i * grainsPerOne).natAbs * 10 ^ 9 < grainsPerOne := by
  constructor
  · rintro ⟨place, hplace, hnear, -⟩
    exact ⟨place, hplace, hnear⟩
  · rintro ⟨place, hplace, hnear⟩
    exact ⟨place, hplace, hnear, fun j hj => lt_of_near (by omega) hj⟩

/-- An integer is near itself. -/
theorem nearly_of_toInt? (h : value.toInt? = some i) : Nearly value i := by
  refine nearly_iff.mpr ⟨_, rank?_of_toInt? h, ?_⟩
  rw [Int.sub_self, Int.natAbs_zero, Nat.zero_mul]
  exact Decimal.grainsPerOne_pos

/-- **A value settles to an integer just if it is nearly that integer.** -/
theorem toInt?_settle_iff (h : value.isFinite = true) :
    (settle value).toInt? = some i ↔ Nearly value i := by
  obtain ⟨negative, g, hg, rfl⟩ := isFinite_iff.mp h
  rw [settle_finite]
  constructor
  · intro hint
    split at hint
    · rename_i hnear
      rw [toInt?_round] at hint
      obtain rfl := Option.some.inj hint
      exact nearly_iff.mpr ⟨_, rfl, by rwa [natAbs_sub_nearestWhole]⟩
    · exact nearly_of_toInt? hint
  · intro hnearly
    obtain ⟨place, hplace, hnear⟩ := nearly_iff.mp hnearly
    obtain rfl : signed negative g = place := Option.some.inj hplace
    -- the nearest integer is no more than a half away, which leaves room for one integer only
    have hhalf := two_mul_offset_le g
    have hoffset := natAbs_sub_nearestWhole negative g
    obtain rfl : i = signed negative (nearestWhole g) := by
      apply eq_of_near (r := signed negative g)
      omega
    rw [hoffset] at hnear
    rw [if_pos hnear, toInt?_round]

/-! ## Positional texts -/

/-- A minus sign or nothing, digits, and a point with more digits if there are more. -/
def IsPositional (s : Text) : Prop :=
  ∃ negative whole fraction, s = signText negative ++ Decimal.pointed whole fraction ∧
    whole ≠ [] ∧ Decimal.AllDigits whole ∧ Decimal.AllDigits fraction

theorem isPositional_whole (negative : Bool) {whole : Text} (hne : whole ≠ [])
    (hdigits : Decimal.AllDigits whole) : IsPositional (signText negative ++ whole) :=
  ⟨negative, whole, [], by rw [Decimal.pointed, List.append_nil], hne, hdigits,
    fun _ hc => absurd hc List.not_mem_nil⟩

theorem isPositional_ofInt (i : Int) : IsPositional (Numeral.ofInt i) := by
  rw [ofInt_eq_signText]
  exact isPositional_whole _ (Numeral.ofNat_ne_nil _) (Decimal.allDigits_ofNat _)

theorem isPositional_plainText (negative : Bool) (d : Decimal) :
    IsPositional (signText negative ++ d.plainText) := by
  obtain ⟨digits, exponent⟩ := d
  cases exponent with
  | ofNat e =>
    exact isPositional_whole negative (List.append_ne_nil_of_left_ne_nil (Numeral.ofNat_ne_nil _) _)
      (Decimal.allDigits_append.mpr ⟨Decimal.allDigits_ofNat digits, Decimal.allDigits_zeros e⟩)
  | negSucc e =>
    exact ⟨negative, _, _, rfl, Numeral.ofNat_ne_nil _, Decimal.allDigits_ofNat _,
      Decimal.allDigits_dropEnd (Decimal.allDigits_padded _ _)⟩

theorem isPositional_text (h : value.isFinite = true) : IsPositional value.text := by
  obtain ⟨negative, g, hg, rfl⟩ := isFinite_iff.mp h
  rw [text]
  split
  · exact isPositional_whole negative (List.cons_ne_nil _ _) (Decimal.allDigits_zeros 1)
  · exact isPositional_plainText negative _

theorem isPositional_numberText (h : value.isFinite = true) : IsPositional (numberText value) := by
  rcases numberText_cases value with ⟨i, -, -, htext⟩ | ⟨-, htext⟩
  · rw [htext]
    exact isPositional_ofInt i
  · rw [htext]
    exact isPositional_text h

/-! ## By way of a word -/

/-- A number as it is shown if integers go through a word, and a test without one says which do. -/
def numberTextByWord (value : Binary64) : Text :=
  let settled := settle value
  if settled.isWord then Numeral.ofInt settled.toInt64.toInt else value.text

/-- **Going through a word changes nothing.** -/
theorem numberTextByWord_eq (value : Binary64) : numberTextByWord value = numberText value := by
  unfold numberTextByWord
  show (if (settle value).isWord = true then _ else _) = _
  by_cases hword : (settle value).isWord = true
  · obtain ⟨i, hint, hi⟩ := isWord_iff.mp hword
    rw [if_pos hword, toInt_toInt64 hint hi, numberText_of_toInt? hint hi]
  · rw [if_neg hword]
    rcases numberText_cases value with ⟨i, hint, hi, -⟩ | ⟨-, htext⟩
    · exact absurd (isWord_iff.mpr ⟨i, hint, hi⟩) hword
    · exact htext.symm

/-! ## Read back and printed again -/

/-- An integer that is shown as such reads back to a value that is the integer. -/
theorem toInt?_ofInt_of_settle (h : (settle value).toInt? = some i) (hi : i.natAbs < 2 ^ 63) :
    (ofInt i).toInt? = some i := by
  have hback := toInt?_ofInt (i := i) (by omega)
  rw [hback, ← eq_of_rank?_eq h hback (rank?_ofInt_of_toInt? h).symm]

/-- **What is printed reads back to the integer nearby, or to the value, and prints the same again.** -/
theorem exists_readBack (h : value.isFinite = true) :
    ∃ back, ofText? (numberText value) = some back ∧
      (back = value ∨ ∃ i, back.toInt? = some i ∧ Nearly value i) ∧
      (∀ i, Nearly value i → back.toInt? = some i) ∧
      numberText back = numberText value := by
  rcases numberText_cases value with ⟨i, hint, hi, htext⟩ | ⟨hself, htext⟩
  · have hback := toInt?_ofInt_of_settle hint hi
    refine ⟨ofInt i, by rw [htext, ofText?_ofInt], ?_, ?_, ?_⟩
    · exact Or.inr ⟨i, hback, (toInt?_settle_iff h).mp hint⟩
    · intro j hj
      rw [hback, ← hint]
      exact (toInt?_settle_iff h).mpr hj
    · have hsettled : (settle (ofInt i)).toInt? = some i := by rw [settle_of_toInt? hback, hback]
      rw [htext, numberText_of_toInt? hsettled hi]
  · refine ⟨value, by rw [htext, ofText?_text h], Or.inl rfl, ?_, rfl⟩
    intro j hj
    rw [← hself]
    exact (toInt?_settle_iff h).mpr hj

/-- **The zero below zero is not shown as such**, nor is anything else shown so. -/
theorem numberText_ne_minusZero (h : value.isFinite = true) : numberText value ≠ ['-', '0'] := by
  intro htext
  obtain ⟨back, hread, -, -, hagain⟩ := exists_readBack h
  rw [htext] at hread hagain
  -- it would read back to that zero, which is shown as `0`
  have hzero : ofText? ['-', '0'] = some (zero true) := by decide
  obtain rfl := Option.some.inj (hzero.symm.trans hread)
  have hshown : numberText (zero true) = ['0'] :=
    numberText_of_tiny true representable_zero Decimal.smallest_pos
  rw [hshown] at hagain
  exact nomatch hagain

/-- **What is printed of a finite number is faithful, and stays.**

    1. It is written positionally, and it is not `-0`.
    2. It reads back to a number, which is the value or the integer nearest to it, less than a billionth
       away.  If there is an integer so near, it is that one.
    3. That number is printed in the same way again.
    4. Integers can be printed by way of a word of 64 bits, and none of them stops at an end of its
       range. -/
theorem numberText_faithful (h : value.isFinite = true) :
    IsPositional (numberText value) ∧ numberText value ≠ ['-', '0'] ∧
    (∃ back, ofText? (numberText value) = some back ∧
      (back = value ∨ ∃ i, back.toInt? = some i ∧ Nearly value i) ∧
      (∀ i, Nearly value i → back.toInt? = some i) ∧
      numberText back = numberText value) ∧
    numberTextByWord value = numberText value ∧
    ((settle value).isWord = true → ∃ i, (settle value).toInt? = some i ∧
      Int64.minValue.toInt < i ∧ i ≤ Int64.maxValue.toInt ∧ (settle value).toInt64.toInt = i) := by
  refine ⟨isPositional_numberText h, numberText_ne_minusZero h, exists_readBack h,
    numberTextByWord_eq value, ?_⟩
  intro hword
  obtain ⟨i, hint, hi⟩ := isWord_iff.mp hword
  have hmin : Int64.minValue.toInt = -2 ^ 63 := by decide
  have hmax : Int64.maxValue.toInt = 2 ^ 63 - 1 := by decide
  exact ⟨i, hint, by omega, by omega, toInt_toInt64 hint hi⟩

/-- A tenth of a billionth less than seven. -/
def almostSeven : Binary64 :=
  Decimal.toBinary64 false ⟨69999999999, -10⟩

/-- It is printed as seven, read back as seven, and goes through a word as seven. -/
theorem numberText_faithful_almostSeven :
    numberText almostSeven = ['7'] ∧
    (∃ back, ofText? ['7'] = some back ∧ back.toInt? = some 7 ∧ numberText back = ['7']) ∧
    (settle almostSeven).toInt64.toInt = 7 := by
  have hfinite : almostSeven.isFinite = true := by decide +kernel
  have hsettled : (settle almostSeven).toInt? = some 7 := by decide +kernel
  have htext : numberText almostSeven = ['7'] := by decide +kernel
  obtain ⟨-, -, ⟨back, hread, -, hnear, hagain⟩, -, hcast⟩ := numberText_faithful hfinite
  obtain ⟨i, hint, -, -, hi⟩ := hcast (isWord_iff.mpr ⟨7, hsettled, by decide⟩)
  obtain rfl : 7 = i := Option.some.inj (hsettled.symm.trans hint)
  rw [htext] at hread hagain
  exact ⟨htext, ⟨back, hread, hnear 7 ((toInt?_settle_iff hfinite).mp hsettled), hagain⟩, hi⟩

end DiceNotation
