/-
  Whole numbers of binary64.

  Every whole number up to 2^53 is on the grid (`representable_whole`), so converting one is exact
  (`ofInt_exact`).  From 2^52 on there is nothing but whole numbers on the grid.

  Between the two lies what rounding to an integer needs: the nearest integer of a finite value is
  on the grid, for it is small, or the value is its own nearest integer (`representable_nearestWhole`).
  So `round` is exact too (`round_finite`), and rounding twice is rounding once (`round_round`).  A value
  that is an integer is a whole number under a sign (`exists_of_toInt?`), and is not moved.
-/
import DiceNotation.Proofs.Binary64.Length

namespace DiceNotation.Binary64

variable {g : Nat}

/-! ## Counts of grains with a sign -/

theorem natAbs_signed (negative : Bool) (n : Nat) : (signed negative n).natAbs = n := by
  cases negative with
  | true => exact Int.natAbs_neg n
  | false => rfl

theorem signed_zero (negative : Bool) : signed negative 0 = 0 := by
  cases negative with
  | true => rfl
  | false => rfl

theorem signed_of_nonneg {s : Bool} {m : Nat} (h : (0 : Int) ≤ signed s m) : signed s m = m := by
  cases s with
  | false => rfl
  | true =>
    change (0 : Int) ≤ -(m : Int) at h
    show -(m : Int) = m
    omega

/-- A signed count of grains that is on the grid is not moved. -/
theorem ofSigned_exact (zeroNegative : Bool) {i : Int} (hg : Representable g) (h : i.natAbs = g) :
    ∃ negative, ofSigned zeroNegative i = finite negative g hg := by
  refine ⟨_, ofQuotient_of_nearest hg ?_⟩
  have hexact := nearestGrains_exact hg.2 Nat.one_pos
  rw [Nat.mul_one] at hexact
  rw [h, hexact]

/-! ## Whole numbers on the grid -/

/-- **Whole numbers are on the grid up to 2^53.** -/
theorem representable_whole {k : Nat} (hk : k ≤ 2 ^ 53) : Representable (k * grainsPerOne) := by
  obtain ⟨p, -, hone, -⟩ := Decimal.exists_places
  refine ⟨Decimal.mul_grainsPerOne_lt_grainLimit (Nat.le_trans hk (by decide)), ?_⟩
  rw [hone]
  exact spacing_dvd_shift _ hk

/-- Up to 2^53 converting an integer is exact. -/
theorem ofInt_exact {k : Nat} (hk : k ≤ 2 ^ 53) :
    ofInt k = finite false (k * grainsPerOne) (representable_whole hk) := by
  have habs : ((k : Int) * grainsPerOne).natAbs = k * grainsPerOne := by
    rw [← Int.natCast_mul, Int.natAbs_natCast]
  have hexact := nearestGrains_exact (representable_whole hk).2 Nat.one_pos
  rw [Nat.mul_one] at hexact
  have hsign : (if (k : Int) * grainsPerOne = 0 then false
      else decide ((k : Int) * grainsPerOne < 0)) = false := by
    split
    · rfl
    · rw [decide_eq_false_iff_not, ← Int.natCast_mul]
      omega
  unfold ofInt ofSigned
  rw [hsign, habs]
  exact ofQuotient_of_nearest _ hexact

theorem isPlain_ofInt {k : Nat} (hk : k ≤ 2 ^ 53) : IsPlain (ofInt k) := by
  rw [ofInt_exact hk]
  exact ⟨rfl, rfl⟩

theorem isFinite_ofInt {k : Nat} (hk : k ≤ 2 ^ 53) : (ofInt k).isFinite = true :=
  (isPlain_ofInt hk).1

theorem rank?_whole {k : Nat} (hk : k ≤ 2 ^ 53) :
    (ofInt k).rank? = some (k * grainsPerOne : Nat) := by
  rw [ofInt_exact hk]
  rfl

/-! ## The nearest integer -/

/-- The integer nearest to a magnitude, a half going up. -/
def nearestWhole (g : Nat) : Nat :=
  (2 * g + grainsPerOne) / (2 * grainsPerOne)

theorem nearestWhole_mul (k : Nat) : nearestWhole (k * grainsPerOne) = k := by
  have hpos := Decimal.grainsPerOne_pos
  unfold nearestWhole
  generalize grainsPerOne = one at hpos
  have hsum : 2 * (k * one) + one = one + 2 * one * k := by
    rw [Nat.mul_comm k one, Nat.mul_assoc, Nat.add_comm]
  rw [hsum, Nat.add_mul_div_left _ _ (by omega), Nat.div_eq_of_lt (by omega), Nat.zero_add]

theorem nearestWhole_of_large (hgrid : spacing g ∣ g) (h : 2 ^ 52 * grainsPerOne ≤ g) :
    nearestWhole g * grainsPerOne = g := by
  obtain ⟨k, hk⟩ := Decimal.grainsPerOne_dvd_of_large hgrid h
  rw [Nat.mul_comm] at hk
  rw [hk, nearestWhole_mul]

theorem nearestWhole_le_of_small (h : g < 2 ^ 52 * grainsPerOne) : nearestWhole g ≤ 2 ^ 52 := by
  have hpos := Decimal.grainsPerOne_pos
  unfold nearestWhole
  generalize grainsPerOne = one at hpos h
  have hlt : (2 * g + one) / (2 * one) < 2 ^ 52 + 1 := by
    apply Nat.div_lt_of_lt_mul
    rw [Nat.mul_comm (2 * one)]
    omega
  omega

/-- **The nearest integer is on the grid.** -/
theorem representable_nearestWhole (hg : Representable g) :
    Representable (nearestWhole g * grainsPerOne) := by
  rcases Nat.lt_or_ge g (2 ^ 52 * grainsPerOne) with hsmall | hlarge
  · exact representable_whole (Nat.le_trans (nearestWhole_le_of_small hsmall) (by decide))
  · rw [nearestWhole_of_large hg.2 hlarge]
    exact hg

theorem round_finite (negative : Bool) (hg : Representable g) :
    (finite negative g hg).round
      = finite negative (nearestWhole g * grainsPerOne) (representable_nearestWhole hg) := by
  apply ofQuotient_of_nearest
  have hexact := nearestGrains_exact (representable_nearestWhole hg).2 Nat.one_pos
  rwa [Nat.mul_one] at hexact

theorem round_round (x : Binary64) : x.round.round = x.round := by
  cases x with
  | nan => rfl
  | infinite negative => rfl
  | finite negative g hg =>
    simp only [round_finite, nearestWhole_mul]

theorem toInt?_round (negative : Bool) (hg : Representable g) :
    (finite negative g hg).round.toInt? = some (signed negative (nearestWhole g)) := by
  rw [round_finite]
  show (if nearestWhole g * grainsPerOne % grainsPerOne = 0
    then some (signed negative (nearestWhole g * grainsPerOne / grainsPerOne)) else none) = _
  rw [if_pos (Nat.mul_mod_left _ _), Nat.mul_div_cancel _ Decimal.grainsPerOne_pos]

/-- **A value that is an integer is a whole number under a sign.** -/
theorem exists_of_toInt? {x : Binary64} {i : Int} (h : x.toInt? = some i) :
    ∃ negative k, ∃ hg : Representable (k * grainsPerOne),
      x = finite negative (k * grainsPerOne) hg ∧ i = signed negative k := by
  cases x with
  | nan => cases h
  | infinite negative => cases h
  | finite negative g hg =>
    rw [toInt?] at h
    by_cases hwhole : g % grainsPerOne = 0
    · rw [if_pos hwhole] at h
      have hself : g / grainsPerOne * grainsPerOne = g :=
        Nat.div_mul_cancel (Nat.dvd_of_mod_eq_zero hwhole)
      refine ⟨negative, g / grainsPerOne, by rwa [hself], ?_, (Option.some.inj h).symm⟩
      simp only [hself]
    · rw [if_neg hwhole] at h
      cases h

/-- **An integer is its own nearest one.** -/
theorem round_of_toInt? {x : Binary64} {i : Int} (h : x.toInt? = some i) : x.round = x := by
  obtain ⟨negative, k, hg, rfl, -⟩ := exists_of_toInt? h
  simp only [round_finite, nearestWhole_mul]

end DiceNotation.Binary64
