/-
  Integers of 64 bits, converted.

  A die shows an integer and its value is a binary64 number.  Whatever the integer, the value is an
  integer again (`toInt?_ofInt`), but not always the same one: only 53 leading bits are kept.

  1. The grid looks the same at every scale, as long as it is coarser than single grains; and where it
     is not, there is nothing to round.  So an integer is rounded as a count of ones just as it would be
     as a count of grains (`nearestGrains_ones`), and `rounded` can forget the grains.
  2. An integer comes through as itself just if its bits after the leading 53 are zero
     (`rounded_eq_self_iff`).  All integers up to 2^53 do.
  3. Otherwise it moves, by no more than half the distance of two neighbours (`rounded_near`), and the
     order of two integers is kept (`rounded_mono`).

  The other way round, a value that is an integer has the place of that integer, whatever its size
  (`rank?_of_toInt?`); and the digits of an integer are read as its value (`ofText?_ofInt`).
-/
import DiceNotation.Proofs.Binary64.Whole

namespace DiceNotation.Binary64

variable {i j : Int} {x : Binary64}

/-! ## Rounding is the same at every scale -/

/-- The whole number nearest to a quotient is at most half away from it. -/
theorem halfEven_near (num : Nat) {den : Nat} (hden : 0 < den) :
    2 * num ≤ 2 * (halfEven num den * den) + den ∧ 2 * (halfEven num den * den) ≤ 2 * num + den := by
  have hdiv := Nat.div_add_mod num den
  have hmod := Nat.mod_lt num hden
  rw [Nat.mul_comm] at hdiv
  have hup : (num / den + 1) * den = num / den * den + den := Nat.succ_mul _ _
  unfold halfEven
  simp only
  split
  · omega
  · split
    · omega
    · -- an exact half, so that it does not matter where it goes
      rcases Nat.mod_two_eq_zero_or_one (num / den) with heven | hodd
      · rw [heven, Nat.add_zero]
        omega
      · rw [hodd]
        omega

theorem log2_shift {n : Nat} (hn : n ≠ 0) (k : Nat) : (n * 2 ^ k).log2 = n.log2 + k := by
  have hne : n * 2 ^ k ≠ 0 := Nat.mul_ne_zero hn (Nat.ne_of_gt (Nat.two_pow_pos k))
  rw [Nat.log2_eq_iff hne, Nat.pow_add, show n.log2 + k + 1 = n.log2 + 1 + k by omega, Nat.pow_add]
  constructor
  · exact Nat.mul_le_mul_right _ (Nat.log2_self_le hn)
  · exact Nat.mul_lt_mul_of_pos_right Nat.lt_log2_self (Nat.two_pow_pos k)

theorem spacing_shift {n : Nat} (hn : 2 ^ 52 ≤ n) (k : Nat) :
    spacing (n * 2 ^ k) = spacing n * 2 ^ k := by
  have hne : n ≠ 0 := by omega
  have hlog : 52 ≤ n.log2 := (Nat.le_log2 hne).mpr hn
  unfold spacing
  rw [log2_shift hne, ← Nat.pow_add]
  congr 1
  omega

/-- **Shifting and rounding commute.** -/
theorem nearestGrains_shift (n k : Nat) :
    nearestGrains (n * 2 ^ k) 1 = nearestGrains n 1 * 2 ^ k := by
  rcases Nat.le_total n (2 ^ 53) with hsmall | hlarge
  · -- on the grid at either scale
    have hself := nearestGrains_exact (spacing_dvd_shift k hsmall) Nat.one_pos
    have hone := nearestGrains_exact (spacing_dvd_shift 0 hsmall) Nat.one_pos
    rw [Nat.mul_one] at hself
    rw [Nat.pow_zero, Nat.mul_one, Nat.mul_one] at hone
    rw [hself, hone]
  · unfold nearestGrains
    rw [Nat.div_one, Nat.div_one, Nat.one_mul, Nat.one_mul, spacing_shift (by omega),
      halfEven_scale _ _ (Nat.two_pow_pos k), Nat.mul_assoc]

/-! ## Integers -/

/-- The integer that an integer of 64 bits becomes. -/
def rounded (i : Int) : Int :=
  signed (decide (i < 0)) (nearestGrains i.natAbs 1)

/-- An integer with no bits but zeros after its leading 53. -/
def IsExact (i : Int) : Prop :=
  spacing i.natAbs ∣ i.natAbs

instance (i : Int) : Decidable (IsExact i) :=
  inferInstanceAs (Decidable (spacing i.natAbs ∣ i.natAbs))

theorem isExact_of_le (h : i.natAbs ≤ 2 ^ 53) : IsExact i := by
  have hdvd := spacing_dvd_shift 0 h
  rwa [Nat.pow_zero, Nat.mul_one] at hdvd

theorem signed_natAbs (i : Int) : signed (decide (i < 0)) i.natAbs = i := by
  unfold signed
  split
  · rename_i h
    have hneg := of_decide_eq_true h
    omega
  · rename_i h
    have hpos : ¬ i < 0 := fun hneg => h (decide_eq_true hneg)
    omega

/-- **An integer comes through as itself just if it has no more than 53 bits.** -/
theorem rounded_eq_self_iff : rounded i = i ↔ IsExact i := by
  constructor
  · intro h
    have habs : nearestGrains i.natAbs 1 = i.natAbs := by
      rw [← natAbs_signed (decide (i < 0)) (nearestGrains i.natAbs 1)]
      exact congrArg Int.natAbs h
    have hspaced := nearestGrains_spaced i.natAbs 1
    rwa [habs] at hspaced
  · intro h
    have hexact := nearestGrains_exact h Nat.one_pos
    rw [Nat.mul_one] at hexact
    rw [rounded, hexact, signed_natAbs]

/-- **It moves by at most half the distance of two neighbours.** -/
theorem rounded_near (i : Int) : 2 * (rounded i - i).natAbs ≤ spacing i.natAbs := by
  have hnear := halfEven_near i.natAbs (spacing_pos i.natAbs)
  have hround : nearestGrains i.natAbs 1 = halfEven i.natAbs (spacing i.natAbs) * spacing i.natAbs := by
    unfold nearestGrains
    rw [Nat.div_one, Nat.one_mul]
  unfold rounded signed
  rw [hround]
  split
  · rename_i h
    have hneg := of_decide_eq_true h
    omega
  · rename_i h
    have hpos : ¬ i < 0 := fun hneg => h (decide_eq_true hneg)
    omega

theorem natAbs_toInt_le (x : Int64) : x.toInt.natAbs ≤ 2 ^ 64 := by
  have hlow := x.le_toInt
  have hhigh := x.toInt_lt
  omega

theorem nearestGrains_le_word {n : Nat} (h : n ≤ 2 ^ 64) : nearestGrains n 1 ≤ 2 ^ 64 := by
  have hmono := nearestGrains_mono 1 h
  have hexact := nearestGrains_exact (spacing_two_pow_dvd 64) Nat.one_pos
  rw [Nat.mul_one] at hexact
  rwa [hexact] at hmono

/-- The place of a small count is what it is rounded to. -/
theorem place_eq_rounded (h : i.natAbs ≤ 2 ^ 64) : place i 1 = rounded i := by
  have hle := nearestGrains_le_word h
  have hlimit : 2 ^ 64 ≤ grainLimit := by
    unfold grainLimit
    apply Nat.pow_le_pow_right
    · decide
    · decide
  rw [place, Nat.min_eq_left (Nat.le_trans hle hlimit), rounded]

/-- **The order of integers is kept.** -/
theorem rounded_mono (hi : i.natAbs ≤ 2 ^ 64) (hj : j.natAbs ≤ 2 ^ 64) (h : i ≤ j) :
    rounded i ≤ rounded j := by
  rw [← place_eq_rounded hi, ← place_eq_rounded hj]
  exact place_mono 1 h

/-! ## Values -/

/-- Ones are rounded as grains are. -/
theorem nearestGrains_ones (n : Nat) :
    nearestGrains (n * grainsPerOne) 1 = nearestGrains n 1 * grainsPerOne := by
  obtain ⟨p, -, hone, -⟩ := Decimal.exists_places
  rw [hone, nearestGrains_shift]

theorem representable_ones {n : Nat} (h : n ≤ 2 ^ 64) :
    Representable (nearestGrains n 1 * grainsPerOne) := by
  refine ⟨Decimal.mul_grainsPerOne_lt_grainLimit (nearestGrains_le_word h), ?_⟩
  rw [← nearestGrains_ones]
  exact nearestGrains_spaced _ 1

/-- Counting in grains does not change the sign. -/
theorem sign_mul_grainsPerOne (i : Int) :
    (if i * grainsPerOne = 0 then false else decide (i * grainsPerOne < 0)) = decide (i < 0) := by
  have hone : (0 : Int) < grainsPerOne := Int.natCast_pos.mpr Decimal.grainsPerOne_pos
  by_cases hi : i < 0
  · have hneg : i * grainsPerOne < 0 := Int.mul_neg_of_neg_of_pos hi hone
    rw [if_neg (Int.ne_of_lt hneg), decide_eq_true hneg, decide_eq_true hi]
  · have hnonneg : 0 ≤ i * grainsPerOne := Int.mul_nonneg (Int.not_lt.mp hi) (Int.le_of_lt hone)
    rw [decide_eq_false (Int.not_lt.mpr hnonneg), decide_eq_false hi, ite_self]

/-- Converting an integer rounds its magnitude, counted in grains, under its sign. -/
theorem ofInt_eq_ofQuotient (i : Int) :
    ofInt i = ofQuotient (decide (i < 0)) (i.natAbs * grainsPerOne) 1 := by
  have habs : (i * grainsPerOne).natAbs = i.natAbs * grainsPerOne := by
    rw [Int.natAbs_mul, Int.natAbs_natCast]
  unfold ofInt ofSigned
  rw [sign_mul_grainsPerOne, habs]

theorem ofInt_eq_finite (h : i.natAbs ≤ 2 ^ 64) : ofInt i
    = finite (decide (i < 0)) (nearestGrains i.natAbs 1 * grainsPerOne) (representable_ones h) := by
  rw [ofInt_eq_ofQuotient]
  exact ofQuotient_of_nearest _ (nearestGrains_ones _)

/-- **The value of an integer is an integer.** -/
theorem toInt?_ofInt (h : i.natAbs ≤ 2 ^ 64) : (ofInt i).toInt? = some (rounded i) := by
  rw [ofInt_eq_finite h, toInt?, if_pos (Nat.mul_mod_left _ _),
    Nat.mul_div_cancel _ Decimal.grainsPerOne_pos]
  rfl

/-! ## Values that are integers -/

theorem rank?_of_toInt? (h : x.toInt? = some i) : x.rank? = some (i * grainsPerOne) := by
  obtain ⟨negative, k, hg, rfl, rfl⟩ := exists_of_toInt? h
  rw [← signed_mul]
  rfl

/-- **A value that is an integer has the place of that integer**, however large it is. -/
theorem rank?_ofInt_of_toInt? (h : x.toInt? = some i) : (ofInt i).rank? = x.rank? := by
  obtain ⟨negative, k, hg, rfl, rfl⟩ := exists_of_toInt? h
  have hexact := nearestGrains_exact hg.2 Nat.one_pos
  rw [Nat.mul_one] at hexact
  rw [rank?_ofInt, ← signed_mul, place_signed, hexact, Nat.min_eq_left (Nat.le_of_lt hg.1)]
  rfl

/-! ## Integers read back -/

theorem ofInt_eq_signText (i : Int) :
    Numeral.ofInt i = signText (decide (i < 0)) ++ Numeral.ofNat i.natAbs := by
  unfold Numeral.ofInt signText
  by_cases hi : i < 0
  · rw [if_pos hi, if_pos (decide_eq_true hi)]
    rfl
  · rw [if_neg hi, if_neg (by simpa using hi)]
    rfl

/-- **A written integer is read as its value**, rounded as any other number. -/
theorem ofText?_ofInt (i : Int) : ofText? (Numeral.ofInt i) = some (ofInt i) := by
  have hsign : takeSign (Numeral.ofInt i) = (decide (i < 0), Numeral.ofNat i.natAbs) := by
    rw [ofInt_eq_signText]
    exact takeSign_signText _ (Numeral.freeOf_ofNat (by decide) _)
  have hread : decimal? (Numeral.ofNat i.natAbs) = some ⟨i.natAbs, 0⟩ := by
    rw [Decimal.decimal?_of_allDigits (Numeral.ofNat_ne_nil _) (Decimal.allDigits_ofNat _),
      Numeral.value_ofNat]
  unfold ofText?
  simp only [hsign, hread, Option.map_some]
  rw [Decimal.toBinary64_eq_ofQuotient, ofInt_eq_ofQuotient]
  show some (ofQuotient _ (i.natAbs * 10 ^ 0 * grainsPerOne) 1) = _
  rw [Nat.pow_zero, Nat.mul_one]

end DiceNotation.Binary64
