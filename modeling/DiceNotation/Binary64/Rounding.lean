/-
  The grid of binary64, and rounding onto it.

  The least positive binary64 number is 2^-1074.  Call it a grain.  Every finite binary64 number is
  a whole number of grains, so its magnitude is a natural number, its order is the order of
  naturals, and no arithmetic on it ever needs a fraction.  What makes the format a FLOATING one is
  which counts of grains it can hold:

  1. a count must stay below 2^2098 grains (`grainLimit`), which is 2^1024;
  2. only its leading 53 bits may be other than zero (`Representable`).

  `nearestGrains num den` rounds a quotient of naturals to the nearest count of the second kind, an
  exact half going to the even neighbour.  The rule needs one line, because the spacing of the grid
  around a quotient depends only on the quotient's leading bit: divide by the spacing, round to a
  whole number (`halfEven`), multiply again.  Rounding up may carry into a 54th bit, but then the
  result is a power of two and still of the second kind: `nearestGrains_spaced`.
-/

-- powers of naturals are those of the core, whatever else a library brings
attribute [instance(high)] instPowNat
attribute [default_instance high] instPowNat

namespace DiceNotation.Binary64

/-! ## The grid -/

/-- How many grains make one. -/
def grainsPerOne : Nat := 2 ^ 1074

/-- The first count of grains beyond every finite number. -/
def grainLimit : Nat := 2 ^ 2098

/-- The distance between neighbours on the grid around a count of grains. -/
def spacing (n : Nat) : Nat := 2 ^ (n.log2 - 52)

/-- The counts of grains that binary64 holds: below the limit, and zero after the leading 53 bits. -/
def Representable (n : Nat) : Prop :=
  n < grainLimit ∧ spacing n ∣ n

instance (n : Nat) : Decidable (Representable n) :=
  inferInstanceAs (Decidable (n < grainLimit ∧ spacing n ∣ n))

theorem grainLimit_pos : 0 < grainLimit := by
  unfold grainLimit
  apply Nat.pow_pos
  decide

theorem representable_zero : Representable 0 :=
  ⟨grainLimit_pos, Nat.dvd_zero _⟩

/-! ## Rounding a quotient to a whole number -/

/-- The whole number nearest to `num / den`; of two equally near ones, the even one. -/
def halfEven (num den : Nat) : Nat :=
  let q := num / den
  let r := num % den
  if 2 * r < den then q
  else if den < 2 * r then q + 1
  else q + q % 2

theorem halfEven_le (num den : Nat) : halfEven num den ≤ num / den + 1 := by
  simp only [halfEven]
  split
  · omega
  · split
    · omega
    · have := Nat.mod_lt (num / den) (show 0 < 2 by decide)
      omega

/-! ## Rounding a quotient onto the grid -/

/-- The count of grains nearest to `num / den` that has no more than 53 leading bits, the even one
    of two equally near.  The limit is not looked at. -/
def nearestGrains (num den : Nat) : Nat :=
  halfEven num (den * spacing (num / den)) * spacing (num / den)

/-- A number of at most 53 bits, or 2^53 itself, keeps its place on the grid however far it is
    shifted. -/
theorem spacing_dvd_shift {m : Nat} (s : Nat) (h : m ≤ 2 ^ 53) :
    spacing (m * 2 ^ s) ∣ m * 2 ^ s := by
  unfold spacing
  rcases Nat.eq_or_lt_of_le h with h | h
  · subst h
    rw [← Nat.pow_add, Nat.log2_two_pow]
    exact Nat.pow_dvd_pow 2 (by omega)
  · by_cases hz : m * 2 ^ s = 0
    · rw [hz]
      exact Nat.dvd_zero _
    · have hlt : m * 2 ^ s < 2 ^ (53 + s) := by
        rw [Nat.pow_add]
        exact Nat.mul_lt_mul_of_pos_right h (Nat.two_pow_pos s)
      have hlog : (m * 2 ^ s).log2 < 53 + s := (Nat.log2_lt hz).mpr hlt
      exact Nat.dvd_trans (Nat.pow_dvd_pow 2 (by omega)) (Nat.dvd_mul_left _ _)

/-- What is left after dividing by the spacing has at most 53 bits. -/
theorem div_spacing_lt (num den : Nat) : num / (den * spacing (num / den)) < 2 ^ 53 := by
  rw [← Nat.div_div_eq_div_mul]
  apply Nat.div_lt_of_lt_mul
  unfold spacing
  rw [← Nat.pow_add]
  exact Nat.lt_of_lt_of_le Nat.lt_log2_self (Nat.pow_le_pow_right (by decide) (by omega))

/-- **Rounding lands on the grid.** -/
theorem nearestGrains_spaced (num den : Nat) :
    spacing (nearestGrains num den) ∣ nearestGrains num den := by
  apply spacing_dvd_shift
  have h1 := halfEven_le num (den * spacing (num / den))
  have h2 := div_spacing_lt num den
  omega

end DiceNotation.Binary64
