/-
  How numbers are shown.

  A number that is near enough to an integer is shown as that integer (`settle`), and the text of a
  number looks at what it settles to.  Everything said here of the text rests on four facts.

  1. Rounding twice is rounding once, so settling twice is settling once (`settle_settle`), and a
     settled number has the text of the number that it came from (`numberText_settle`).
  2. The tolerance is no billionth but the number next to it, a little more.  The distance that is
     compared with it, however, is a number itself, and there is none between the two
     (`below_tolerance_iff`).  So settling goes by the billionth (`settle_finite`).
  3. A value that is tiny, nearer to zero than 2^-30, settles to zero and is shown as `0`
     (`numberText_of_tiny`).  Those are just the values whose digits would begin far behind the
     point; without them a number has at most 310 characters (`length_numberText_le`).
  4. A number is written in figures, a sign and the letters of the words for what is no number.  No
     separator is among them (`numberText_subset_glyphs`).
-/
import DiceNotation.Field
import DiceNotation.Proofs.Binary64.Nearest

namespace DiceNotation

open Text Binary64

/-! ## Settling -/

theorem settle_eq (value : Binary64) : settle value = value ∨ settle value = value.round := by
  unfold settle
  split
  · exact Or.inr rfl
  · exact Or.inl rfl

theorem settle_of_toInt? {value : Binary64} {i : Int} (h : value.toInt? = some i) :
    settle value = value := by
  rcases settle_eq value with hself | hround
  · exact hself
  · rw [hround, Binary64.round_of_toInt? h]

/-- **Settling twice is settling once.** -/
theorem settle_settle (value : Binary64) : settle (settle value) = settle value := by
  rcases settle_eq value with hself | hround
  · rw [hself, hself]
  · rw [hround]
    rcases settle_eq value.round with hagain | hagain
    · exact hagain
    · rw [hagain, Binary64.round_round]

/-- An integer that does not fit into 64 bits is its own nearest one. -/
theorem round_eq_self {value : Binary64} {i : Int} (h : value.round.toInt? = some i)
    (hi : 2 ^ 63 ≤ i.natAbs) : value.round = value := by
  cases value with
  | nan => rfl
  | infinite negative => rfl
  | finite negative g hg =>
    rw [Binary64.toInt?_round] at h
    obtain rfl := Option.some.inj h
    rw [Binary64.natAbs_signed] at hi
    have hlarge : 2 ^ 52 * Binary64.grainsPerOne ≤ g := by
      rcases Nat.lt_or_ge g (2 ^ 52 * Binary64.grainsPerOne) with hsmall | hlarge
      · have hle := Binary64.nearestWhole_le_of_small hsmall
        omega
      · exact hlarge
    simp only [Binary64.round_finite, Binary64.nearestWhole_of_large hg.2 hlarge]

theorem numberText_of_toInt? {value : Binary64} {i : Int} (h : (settle value).toInt? = some i)
    (hi : i.natAbs < 2 ^ 63) : numberText value = Numeral.ofInt i := by
  unfold numberText
  rw [h]
  exact if_pos hi

/-- **A number is shown as an integer, or it is settled already and shown as it is.** -/
theorem numberText_cases (value : Binary64) :
    (∃ i, (settle value).toInt? = some i ∧ i.natAbs < 2 ^ 63 ∧ numberText value = Numeral.ofInt i) ∨
    (settle value = value ∧ numberText value = value.text) := by
  cases hint : (settle value).toInt? with
  | none =>
    refine Or.inr ⟨?_, by rw [numberText, hint]⟩
    rcases settle_eq value with hself | hround
    · exact hself
    · rw [hround] at hint ⊢
      -- only what is no number has no nearest integer
      cases value with
      | nan => rfl
      | infinite negative => rfl
      | finite negative g hg =>
        rw [Binary64.toInt?_round] at hint
        exact nomatch hint
  | some i =>
    by_cases hi : i.natAbs < 2 ^ 63
    · exact Or.inl ⟨i, rfl, hi, numberText_of_toInt? hint hi⟩
    · refine Or.inr ⟨?_, ?_⟩
      · rcases settle_eq value with hself | hround
        · exact hself
        · rw [hround] at hint ⊢
          exact round_eq_self hint (Nat.le_of_not_lt hi)
      · rw [numberText, hint]
        exact if_neg hi

/-- **A settled number has the text of the number that it came from.** -/
theorem numberText_settle (value : Binary64) : numberText (settle value) = numberText value := by
  rcases numberText_cases value with ⟨i, hint, hi, htext⟩ | ⟨hself, -⟩
  · have hagain : (settle (settle value)).toInt? = some i := by rw [settle_settle, hint]
    rw [htext, numberText_of_toInt? hagain hi]
  · rw [hself]

/-! ## The tolerance -/

/-- The tolerance is the number nearest to a billionth. -/
theorem exists_tolerance :
    ∃ hrep, tolerance = finite false (nearestGrains grainsPerOne (10 ^ 9)) hrep := by
  have hlimit : nearestGrains grainsPerOne (10 ^ 9) < grainLimit := by decide +kernel
  -- said of all decimals, so that nothing computes the grains
  have hquotient : ∀ n, (⟨n, -9⟩ : Decimal).grainQuotient = (n * grainsPerOne, 10 ^ 9) := fun _ => rfl
  refine ⟨⟨hlimit, nearestGrains_spaced _ _⟩, ?_⟩
  rw [tolerance, Decimal.toBinary64_eq_ofQuotient, hquotient, Nat.one_mul]
  dsimp only
  exact ofQuotient_of_nearest _ rfl

/-- **No number lies between a billionth and the tolerance.** -/
theorem below_tolerance_iff {d : Nat} (hd : Representable d) :
    (finite false d hd).below tolerance = true ↔ d * 10 ^ 9 < grainsPerOne := by
  obtain ⟨hrep, htolerance⟩ := exists_tolerance
  have hrank : (finite false d hd).below tolerance = true ↔ d < nearestGrains grainsPerOne (10 ^ 9) := by
    rw [htolerance, below, compareBy]
    show decide ((d : Int) < (nearestGrains grainsPerOne (10 ^ 9) : Int)) = true ↔ _
    rw [decide_eq_true_iff, Int.ofNat_lt]
  rw [hrank]
  constructor
  · intro hlt
    rcases Nat.lt_or_ge (d * 10 ^ 9) grainsPerOne with hnear | hfar
    · exact hnear
    · -- rounding cannot cross the number
      have hmono := nearestGrains_mono (10 ^ 9) hfar
      rw [nearestGrains_exact hd.2 (by decide)] at hmono
      exact absurd hlt (Nat.not_lt.mpr hmono)
  · intro hnear
    have hmore : grainsPerOne ≤ nearestGrains grainsPerOne (10 ^ 9) * 10 ^ 9 := by decide +kernel
    exact Nat.lt_of_mul_lt_mul_right (Nat.lt_of_lt_of_le hnear hmore)

/-- Settling looks at the offset, without any rounding. -/
theorem settle_finite (negative : Bool) {g : Nat} (hg : Representable g) :
    settle (finite negative g hg)
      = if offset g * 10 ^ 9 < grainsPerOne then (finite negative g hg).round
        else finite negative g hg := by
  unfold settle
  rw [abs_sub_round]
  exact if_congr (below_tolerance_iff _) rfl rfl

/-! ## Tiny values -/

/-- What is tiny is less than a billionth, and so less than a half. -/
theorem lt_of_tiny {g : Nat} (h : g < Decimal.smallest) : g * 10 ^ 9 < grainsPerOne := by
  obtain ⟨m, -, hsmallest, hone, -⟩ := Decimal.exists_exponent
  calc g * 10 ^ 9 < 2 ^ m * 10 ^ 9 :=
        Nat.mul_lt_mul_of_pos_right (by rwa [← hsmallest]) (by decide)
    _ ≤ 2 ^ m * 2 ^ 30 := Nat.mul_le_mul_left _ (by decide)
    _ = grainsPerOne := by rw [hone, Nat.pow_add]

/-- **A tiny value is shown as zero.** -/
theorem numberText_of_tiny (negative : Bool) {g : Nat} (hg : Binary64.Representable g)
    (h : g < Decimal.smallest) : numberText (.finite negative g hg) = ['0'] := by
  have hlt := lt_of_tiny h
  have hhalf : 2 * g < grainsPerOne := by omega
  have hint : (settle (.finite negative g hg)).toInt? = some 0 := by
    rw [settle_finite, offset_of_small hhalf, if_pos hlt, toInt?_round, nearestWhole_of_small hhalf,
      signed_zero]
  exact numberText_of_toInt? hint (by decide)

/-! ## The length of a number -/

/-- What is not tiny is written with at most 310 characters even if it is not shown as an
    integer. -/
theorem length_numberText_le_of_length_text_le {value : Binary64}
    (h : value.text.length ≤ 310) : (numberText value).length ≤ 310 := by
  unfold numberText
  split
  · split
    · rename_i hi
      exact Nat.le_trans (Numeral.length_ofInt_le hi) (by decide)
    · exact h
  · exact h

/-- **No number is shown with more than 310 characters.** -/
theorem length_numberText_le (value : Binary64) : (numberText value).length ≤ 310 := by
  by_cases htiny : ∃ negative grains hg, value = .finite negative grains hg
      ∧ grains < Decimal.smallest
  · obtain ⟨negative, grains, hg, rfl, hlt⟩ := htiny
    rw [numberText_of_tiny negative hg hlt]
    decide
  · apply length_numberText_le_of_length_text_le
    apply Binary64.length_text_le
    intro negative grains hg hvalue
    rcases Nat.lt_or_ge grains Decimal.smallest with hlt | hge
    · exact absurd ⟨negative, grains, hg, hvalue, hlt⟩ htiny
    · exact hge

/-- The lowest number that is not infinite: the longest to write. -/
def Binary64.lowest : Binary64 :=
  Decimal.toBinary64 true ⟨17976931348623157, 292⟩

example : (numberText Binary64.lowest).length = 310 := by decide +kernel

theorem length_sumText_le (values : List Binary64) : (sumText values).length ≤ 310 :=
  length_numberText_le _

/-! ## The characters of a number -/

/-- The characters that numbers are shown with: figures, the sign, and the letters of the words for
    what is no number. -/
def glyphs : List Char :=
  Numeral.figures ++ ['-', 'N', 'a', 'i', 'n', 'f']

theorem figures_subset_glyphs : Numeral.figures ⊆ glyphs :=
  List.subset_append_left _ _

theorem signText_subset_glyphs (negative : Bool) : Binary64.signText negative ⊆ glyphs := by
  cases negative with
  | true => decide
  | false => decide

theorem text_subset_glyphs (value : Binary64) : value.text ⊆ glyphs := by
  cases value with
  | nan => decide
  | infinite negative =>
    exact List.append_subset.mpr ⟨signText_subset_glyphs negative, by decide⟩
  | finite negative grains hg =>
    obtain ⟨digits, htext, -, hfigures, -⟩ := Binary64.text_finite negative grains hg
    rw [htext]
    exact List.append_subset.mpr ⟨signText_subset_glyphs negative,
      fun c hc => figures_subset_glyphs (hfigures hc)⟩

theorem ofInt_subset_glyphs (i : Int) : Numeral.ofInt i ⊆ glyphs := by
  have hdigits : Numeral.ofNat i.natAbs ⊆ glyphs := fun c hc =>
    figures_subset_glyphs (Numeral.ofNat_subset_figures _ hc)
  unfold Numeral.ofInt
  split
  · exact List.cons_subset.mpr ⟨by decide, hdigits⟩
  · exact hdigits

theorem numberText_subset_glyphs (value : Binary64) : numberText value ⊆ glyphs := by
  unfold numberText
  split
  · split
    · exact ofInt_subset_glyphs _
    · exact text_subset_glyphs value
  · exact text_subset_glyphs value

end DiceNotation
