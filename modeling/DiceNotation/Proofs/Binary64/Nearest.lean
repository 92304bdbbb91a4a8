/-
  The nearest integer, and how far it is away.

  A magnitude is at most half a one away from its nearest integer (`offset`).  Whatever divides the
  magnitude and the one divides the offset, which is not larger than the magnitude.  So the offset needs
  no more bits, and taking the nearest integer away is exact (`representable_offset`, `abs_sub_round`).
  An integer that is nearer than a half is nearer than all others (`lt_of_near`).

  A value can be tested for being an integer by what is behind its point (`fraction`), and for fitting
  into a word of 64 bits by its magnitude (`isWord`).  The bound for that is the largest word, which is
  rounded up when it is converted, and so it is 2^63.  But there is no integer between the two: what
  passes goes into a word as it is (`isWord_iff`, `toInt_toInt64`).
-/
import DiceNotation.Proofs.Binary64.Integer
import DiceNotation.Proofs.Binary64.Shares

namespace DiceNotation.Binary64

variable {g : Nat} {x : Binary64} {i j : Int}

/-! ## The offset -/

/-- How far a magnitude is away from its nearest integer. -/
def offset (g : Nat) : Nat :=
  ((g : Int) - (nearestWhole g * grainsPerOne : Nat)).natAbs

theorem two_mul_offset_le (g : Nat) : 2 * offset g ≤ grainsPerOne := by
  have hpos := Decimal.grainsPerOne_pos
  have hdiv := Nat.div_add_mod (2 * g + grainsPerOne) (2 * grainsPerOne)
  have hmod := Nat.mod_lt (2 * g + grainsPerOne) (show 0 < 2 * grainsPerOne by omega)
  have hwhole : 2 * grainsPerOne * nearestWhole g = 2 * (nearestWhole g * grainsPerOne) := by
    rw [Nat.mul_comm (nearestWhole g), Nat.mul_assoc]
  change 2 * grainsPerOne * nearestWhole g + _ = _ at hdiv
  unfold offset
  omega

theorem offset_of_large (hgrid : spacing g ∣ g) (h : 2 ^ 52 * grainsPerOne ≤ g) : offset g = 0 := by
  rw [offset, nearestWhole_of_large hgrid h, Int.sub_self]
  rfl

/-- What divides a magnitude and the one divides the offset. -/
theorem dvd_offset {d : Nat} (hg : d ∣ g) (hone : d ∣ grainsPerOne) : d ∣ offset g := by
  apply Int.ofNat_dvd_left.mp
  apply Int.dvd_sub
  · exact Int.natCast_dvd_natCast.mpr hg
  · exact Int.natCast_dvd_natCast.mpr (Nat.dvd_mul_left_of_dvd hone _)

theorem nearestWhole_of_small (h : 2 * g < grainsPerOne) : nearestWhole g = 0 := by
  apply Nat.div_eq_of_lt
  omega

theorem offset_of_small (h : 2 * g < grainsPerOne) : offset g = g := by
  rw [offset, nearestWhole_of_small h, Nat.zero_mul, Int.natCast_zero, Int.sub_zero,
    Int.natAbs_natCast]

theorem offset_le (g : Nat) : offset g ≤ g := by
  rcases Nat.lt_or_ge (2 * g) grainsPerOne with htiny | hhalf
  · exact Nat.le_of_eq (offset_of_small htiny)
  · have hoffset := two_mul_offset_le g
    omega

/-- A smaller multiple of the spacing is on the grid, where the spacing is no larger. -/
theorem spacing_dvd_of_le {m n : Nat} (hle : m ≤ n) (hdvd : spacing n ∣ m) : spacing m ∣ m := by
  rcases Nat.eq_zero_or_pos m with rfl | hpos
  · exact Nat.dvd_zero _
  · have hlog : m.log2 ≤ n.log2 :=
      (Nat.le_log2 (by omega)).mpr (Nat.le_trans (Nat.log2_self_le (by omega)) hle)
    exact Nat.dvd_trans (Nat.pow_dvd_pow 2 (Nat.sub_le_sub_right hlog 52)) hdvd

/-- Below 2^52 the one is a multiple of the spacing. -/
theorem spacing_dvd_one (h : g < 2 ^ 52 * grainsPerOne) : spacing g ∣ grainsPerOne := by
  obtain ⟨m, -, -, hone, -⟩ := Decimal.exists_exponent
  rcases Nat.eq_zero_or_pos g with rfl | hpos
  · rw [spacing_zero]
    exact Nat.one_dvd _
  · rw [hone, ← Nat.pow_add] at h
    have hlog : g.log2 < 52 + (m + 30) := (Nat.log2_lt (by omega)).mpr h
    rw [hone, spacing]
    exact Nat.pow_dvd_pow 2 (by omega)

/-- **The offset is on the grid.** -/
theorem representable_offset (hg : Representable g) : Representable (offset g) := by
  refine ⟨Nat.lt_of_le_of_lt (offset_le g) hg.1, ?_⟩
  rcases Nat.lt_or_ge g (2 ^ 52 * grainsPerOne) with hsmall | hlarge
  · exact spacing_dvd_of_le (offset_le g) (dvd_offset hg.2 (spacing_dvd_one hsmall))
  · rw [offset_of_large hg.2 hlarge]
    exact Nat.dvd_zero _

/-- Under one sign two magnitudes are as far apart as without it. -/
theorem natAbs_signed_sub (negative : Bool) (m n : Nat) :
    (signed negative m - signed negative n).natAbs = ((m : Int) - n).natAbs := by
  cases negative with
  | true =>
    show (-(m : Int) - -(n : Int)).natAbs = _
    omega
  | false => rfl

/-- **Taking the nearest integer away is exact.** -/
theorem abs_sub_round (negative : Bool) (hg : Representable g) :
    (finite negative g hg - (finite negative g hg).round).abs
      = finite false (offset g) (representable_offset hg) := by
  have hoffset : (signed negative g + signed (!negative) (nearestWhole g * grainsPerOne)).natAbs
      = offset g := by
    rw [signed_not, ← Int.sub_eq_add_neg, natAbs_signed_sub, offset]
  obtain ⟨sign, hsign⟩ := ofSigned_exact (negative && !negative) (representable_offset hg) hoffset
  rw [round_finite]
  show (finite negative g hg + finite (!negative) _ (representable_nearestWhole hg)).abs = _
  rw [finite_add, hsign, abs]

/-! ## The nearest integer -/

/-- Two integers that a place is less than a one away from, in all, are one. -/
theorem eq_of_near {r : Int}
    (h : (r - i * grainsPerOne).natAbs + (r - j * grainsPerOne).natAbs < grainsPerOne) : i = j := by
  have hapart : ((i - j) * grainsPerOne).natAbs < grainsPerOne := by
    rw [Int.sub_mul]
    omega
  rw [Int.natAbs_mul, Int.natAbs_natCast] at hapart
  have hzero : (i - j).natAbs = 0 := by
    rcases Nat.eq_zero_or_pos (i - j).natAbs with hzero | hpos
    · exact hzero
    · exact absurd hapart (Nat.not_lt.mpr (Nat.le_mul_of_pos_left _ hpos))
  omega

/-- **An integer that is nearer than a half is nearer than all others.** -/
theorem lt_of_near {r : Int} (h : 2 * (r - i * grainsPerOne).natAbs < grainsPerOne) (hj : j ≠ i) :
    (r - i * grainsPerOne).natAbs < (r - j * grainsPerOne).natAbs := by
  rcases Nat.lt_or_ge (r - i * grainsPerOne).natAbs (r - j * grainsPerOne).natAbs with hlt | hge
  · exact hlt
  · exact absurd (eq_of_near (r := r) (by omega)) hj

/-- The place of a value is as far from its nearest integer as its magnitude is. -/
theorem natAbs_sub_nearestWhole (negative : Bool) (g : Nat) :
    (signed negative g - signed negative (nearestWhole g) * grainsPerOne).natAbs = offset g := by
  rw [← signed_mul, natAbs_signed_sub, offset]

/-! ## Integers that fit into a word -/

/-- The whole part, under the sign. -/
def trunc : Binary64 → Binary64
  | finite negative grains _ => ofQuotient negative (grains / grainsPerOne * grainsPerOne) 1
  | x => x

/-- What is behind the point. -/
def fraction (x : Binary64) : Binary64 :=
  x - x.trunc

/-- There is nothing behind the point, and the magnitude is less than the largest integer of 64 bits,
    as it is converted. -/
def isWord (x : Binary64) : Bool :=
  x.fraction.sameNumber 0 && x.abs.below (ofInt Int64.maxValue.toInt)

theorem sameNumber_zero_iff : x.sameNumber 0 = true ↔ x.rank? = some 0 := by
  unfold sameNumber compareBy
  rw [rank?_zero]
  cases x.rank? with
  | none => exact ⟨fun h => (nomatch h), fun h => (nomatch h)⟩
  | some r =>
    show (r == 0) = true ↔ _
    rw [beq_iff_eq, Option.some_inj]

theorem representable_trunc (hg : Representable g) :
    Representable (g / grainsPerOne * grainsPerOne) := by
  rcases Nat.lt_or_ge g (2 ^ 52 * grainsPerOne) with hsmall | hlarge
  · have hlt : g / grainsPerOne < 2 ^ 52 := Nat.div_lt_of_lt_mul (by rwa [Nat.mul_comm] at hsmall)
    exact representable_whole (Nat.le_trans (Nat.le_of_lt hlt) (by decide))
  · rwa [Nat.div_mul_cancel (Decimal.grainsPerOne_dvd_of_large hg.2 hlarge)]

theorem trunc_finite (negative : Bool) (hg : Representable g) :
    (finite negative g hg).trunc
      = finite negative (g / grainsPerOne * grainsPerOne) (representable_trunc hg) := by
  apply ofQuotient_of_nearest
  have hexact := nearestGrains_exact (representable_trunc hg).2 Nat.one_pos
  rwa [Nat.mul_one] at hexact

/-- **What has nothing behind the point is an integer.** -/
theorem fraction_eq_zero_iff : x.fraction.sameNumber 0 = true ↔ ∃ i, x.toInt? = some i := by
  cases x with
  | nan =>
    constructor
    · intro h
      cases h
    · rintro ⟨i, h⟩
      cases h
  | infinite negative =>
    constructor
    · intro h
      cases negative with
      | true => cases h
      | false => cases h
    · rintro ⟨i, h⟩
      cases h
  | finite negative g hg =>
    have hdiv := Nat.div_add_mod' g grainsPerOne
    have hwhole : signed negative g - signed negative (g / grainsPerOne * grainsPerOne) = 0
        ↔ g % grainsPerOne = 0 := by
      rw [← Int.natAbs_eq_zero, natAbs_signed_sub]
      omega
    rw [sameNumber_zero_iff, fraction, trunc_finite, rank?_finite_sub, Option.some_inj,
      place_eq_zero_iff, hwhole, toInt?]
    constructor
    · intro hzero
      exact ⟨_, if_pos hzero⟩
    · rintro ⟨i, hi⟩
      by_cases hzero : g % grainsPerOne = 0
      · exact hzero
      · rw [if_neg hzero] at hi
        cases hi

/-- The largest integer of 64 bits is rounded up. -/
theorem rank?_maxWord :
    (ofInt Int64.maxValue.toInt).rank? = some ((2 ^ 63 * grainsPerOne : Nat) : Int) := by
  have hmax : Int64.maxValue.toInt = (2 ^ 63 - 1 : Nat) := by decide
  have hround : nearestGrains (2 ^ 63 - 1) 1 = 2 ^ 63 := by decide +kernel
  rw [hmax, ofInt_eq_finite (by decide)]
  simp only [Int.natAbs_natCast, hround]
  rfl

/-- **What passes for a word is an integer below 2^63**, and every such integer passes. -/
theorem isWord_iff : x.isWord = true ↔ ∃ i, x.toInt? = some i ∧ i.natAbs < 2 ^ 63 := by
  unfold isWord
  rw [Bool.and_eq_true, fraction_eq_zero_iff]
  have hmagnitude : ∀ i, x.toInt? = some i →
      (x.abs.below (ofInt Int64.maxValue.toInt) = true ↔ i.natAbs < 2 ^ 63) := by
    intro i hi
    obtain ⟨negative, k, hg, rfl, rfl⟩ := exists_of_toInt? hi
    rw [natAbs_signed, below, compareBy, rank?_maxWord]
    show decide (((k * grainsPerOne : Nat) : Int) < (2 ^ 63 * grainsPerOne : Nat)) = true ↔ _
    rw [decide_eq_true_iff, Int.ofNat_lt, Nat.mul_lt_mul_right Decimal.grainsPerOne_pos]
  constructor
  · rintro ⟨⟨i, hi⟩, hbelow⟩
    exact ⟨i, hi, (hmagnitude i hi).mp hbelow⟩
  · rintro ⟨i, hi, hlt⟩
    exact ⟨⟨i, hi⟩, (hmagnitude i hi).mpr hlt⟩

/-- **An integer below 2^63 goes into a word as it is**, and stops at neither end of the range. -/
theorem toInt_toInt64 (hi : x.toInt? = some i) (hlt : i.natAbs < 2 ^ 63) : x.toInt64.toInt = i := by
  obtain ⟨negative, k, hg, rfl, rfl⟩ := exists_of_toInt? hi
  have hmin : Int64.minValue.toInt = -2 ^ 63 := by decide
  have hmax : Int64.maxValue.toInt = 2 ^ 63 - 1 := by decide
  rw [toInt64, Nat.mul_div_cancel _ Decimal.grainsPerOne_pos, hmin, hmax,
    Int.min_eq_right (by omega), Int.max_eq_right (by omega)]
  exact Int64.toInt_ofInt_of_le (by omega) (by omega)

end DiceNotation.Binary64
