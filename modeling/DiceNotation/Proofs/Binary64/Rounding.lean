/-
  What rounding onto the grid keeps.

  `nearestGrains num den` rounds a quotient to a count of grains.  Three things are kept:

  1. A count that is on the grid is not moved (`nearestGrains_exact`).
  2. The value of the quotient is all that matters, however it is written
     (`nearestGrains_congr`).
  3. The order is kept, though not strictly (`nearestGrains_mono`).  Within one binade this is the
     order of `halfEven`.  Two quotients in different binades are kept apart by the power of two
     between them, which is on the grid of both: `nearestGrains_le_of_dvd` from below and
     `le_nearestGrains_of_dvd` from above.

  Together they say that rounding never crosses a count that is on the grid.
-/
import DiceNotation.Binary64.Rounding

namespace DiceNotation.Binary64

/-! ## Rounding to a whole number -/

theorem le_halfEven (num den : Nat) : num / den ≤ halfEven num den := by
  simp only [halfEven]
  split
  · omega
  · split <;> omega

theorem halfEven_mono {num num' den : Nat} (h : num ≤ num') :
    halfEven num den ≤ halfEven num' den := by
  have hle : num / den ≤ num' / den := Nat.div_le_div_right h
  rcases Nat.lt_or_eq_of_le hle with hlt | heq
  · have h1 := halfEven_le num den
    have h2 := le_halfEven num' den
    omega
  · -- the same whole part: the remainders are in order
    have hmod : num % den ≤ num' % den := by
      have h1 := Nat.div_add_mod num den
      have h2 := Nat.div_add_mod num' den
      rw [heq] at h1
      omega
    simp only [halfEven, heq]
    split
    · split
      · omega
      · split <;> omega
    · split <;> split <;> (try split) <;> omega

theorem halfEven_scale (num den : Nat) {k : Nat} (hk : 0 < k) :
    halfEven (num * k) (den * k) = halfEven num den := by
  simp only [halfEven, Nat.mul_div_mul_right _ _ hk, Nat.mul_mod_mul_right, ← Nat.mul_assoc,
    Nat.mul_lt_mul_right hk]

theorem halfEven_of_mul (q : Nat) {den : Nat} (hden : 0 < den) : halfEven (q * den) den = q := by
  simp [halfEven, Nat.mul_div_cancel _ hden, hden]

theorem halfEven_eq_zero {num den : Nat} (h : 2 * num < den) : halfEven num den = 0 := by
  have hlt : num < den := by omega
  simp [halfEven, Nat.mod_eq_of_lt hlt, Nat.div_eq_of_lt hlt, h]

/-! ## The spacing of the grid -/

theorem spacing_pos (n : Nat) : 0 < spacing n :=
  Nat.two_pow_pos _

theorem spacing_zero : spacing 0 = 1 := by decide

/-- A power of two is on the grid, wherever it is. -/
theorem spacing_two_pow_dvd (e : Nat) : spacing (2 ^ e) ∣ 2 ^ e := by
  have := spacing_dvd_shift (m := 1) e (by decide)
  rwa [Nat.one_mul] at this

/-! ## Rounding a quotient onto the grid -/

theorem nearestGrains_zero (den : Nat) : nearestGrains 0 den = 0 := by
  simp [nearestGrains, halfEven]

/-- **What is on the grid stays.** -/
theorem nearestGrains_exact {g den : Nat} (hg : spacing g ∣ g) (hden : 0 < den) :
    nearestGrains (g * den) den = g := by
  unfold nearestGrains
  rw [Nat.mul_div_cancel _ hden]
  obtain ⟨t, ht⟩ := hg
  generalize hs : spacing g = s at ht
  have hpos : 0 < s := hs ▸ spacing_pos g
  have hnum : g * den = t * (den * s) := by
    rw [ht, Nat.mul_comm s t, Nat.mul_assoc, Nat.mul_comm s den]
  rw [hnum, halfEven_of_mul t (Nat.mul_pos hden hpos), ht, Nat.mul_comm]

theorem nearestGrains_scale (num den : Nat) {k : Nat} (hk : 0 < k) :
    nearestGrains (num * k) (den * k) = nearestGrains num den := by
  unfold nearestGrains
  rw [Nat.mul_div_mul_right _ _ hk, Nat.mul_right_comm, halfEven_scale _ _ hk]

/-- **Only the value of a quotient matters.** -/
theorem nearestGrains_congr {num den num' den' : Nat} (hden : 0 < den) (hden' : 0 < den')
    (h : num * den' = num' * den) : nearestGrains num den = nearestGrains num' den' := by
  rw [← nearestGrains_scale num den hden', h, Nat.mul_comm den den',
    nearestGrains_scale num' den' hden]

/-- Less than half a grain is nothing. -/
theorem nearestGrains_eq_zero {num den : Nat} (h : 2 * num < den) : nearestGrains num den = 0 := by
  have hq : num / den = 0 := Nat.div_eq_of_lt (by omega)
  rw [nearestGrains, hq, spacing_zero, Nat.mul_one, Nat.mul_one, halfEven_eq_zero h]

/-- A multiple of the spacing that is above the quotient is not passed by rounding. -/
theorem nearestGrains_le_of_dvd {num den g : Nat} (hdvd : spacing (num / den) ∣ g)
    (h : num / den < g) : nearestGrains num den ≤ g := by
  unfold nearestGrains
  obtain ⟨t, ht⟩ := hdvd
  generalize spacing (num / den) = s at ht ⊢
  have hup := halfEven_le num (den * s)
  rw [← Nat.div_div_eq_div_mul] at hup
  have hlt : num / den / s < t := Nat.div_lt_of_lt_mul (ht ▸ h)
  calc halfEven num (den * s) * s ≤ t * s := Nat.mul_le_mul_right s (by omega)
    _ = g := by rw [ht, Nat.mul_comm]

/-- Nor is one that is not above it. -/
theorem le_nearestGrains_of_dvd {num den g : Nat} (hdvd : spacing (num / den) ∣ g)
    (h : g ≤ num / den) : g ≤ nearestGrains num den := by
  unfold nearestGrains
  obtain ⟨t, ht⟩ := hdvd
  have hpos := spacing_pos (num / den)
  generalize spacing (num / den) = s at ht hpos ⊢
  have hdown := le_halfEven num (den * s)
  rw [← Nat.div_div_eq_div_mul] at hdown
  have hle : t ≤ num / den / s := by
    rw [Nat.le_div_iff_mul_le hpos, Nat.mul_comm, ← ht]
    exact h
  calc g = t * s := by rw [ht, Nat.mul_comm]
    _ ≤ halfEven num (den * s) * s := Nat.mul_le_mul_right s (by omega)

/-- **Rounding keeps the order.** -/
theorem nearestGrains_mono {num num' : Nat} (den : Nat) (h : num ≤ num') :
    nearestGrains num den ≤ nearestGrains num' den := by
  have hq : num / den ≤ num' / den := Nat.div_le_div_right h
  rcases Nat.lt_or_ge ((num / den).log2 - 52) ((num' / den).log2 - 52) with hlt | hge
  · -- different binades, with the power of two below the larger quotient between them
    have hne : num' / den ≠ 0 := by
      intro h0
      rw [h0, show Nat.log2 0 = 0 by decide] at hlt
      omega
    have hbelow : num / den < 2 ^ (num' / den).log2 :=
      Nat.lt_of_lt_of_le Nat.lt_log2_self (Nat.pow_le_pow_right (by decide) (by omega))
    have habove : 2 ^ (num' / den).log2 ≤ num' / den := Nat.log2_self_le hne
    calc nearestGrains num den
        ≤ 2 ^ (num' / den).log2 :=
          nearestGrains_le_of_dvd (Nat.pow_dvd_pow 2 (by omega)) hbelow
      _ ≤ nearestGrains num' den :=
          le_nearestGrains_of_dvd (Nat.pow_dvd_pow 2 (by omega)) habove
  · -- the same spacing on both sides
    have hlog : (num / den).log2 - 52 = (num' / den).log2 - 52 := by
      have hle : (num / den).log2 ≤ (num' / den).log2 := by
        by_cases h0 : num / den = 0
        · rw [h0]
          exact Nat.zero_le _
        · have h0' : num' / den ≠ 0 := fun h' => h0 (Nat.le_zero.mp (h' ▸ hq))
          exact (Nat.le_log2 h0').mpr (Nat.le_trans (Nat.log2_self_le h0) hq)
      omega
    unfold nearestGrains spacing
    rw [hlog]
    exact Nat.mul_le_mul_right _ (halfEven_mono h)

/-- A count on the grid is not passed from above. -/
theorem le_nearestGrains {num den g : Nat} (hg : spacing g ∣ g) (hden : 0 < den)
    (h : g * den ≤ num) : g ≤ nearestGrains num den := by
  have := nearestGrains_mono den h
  rwa [nearestGrains_exact hg hden] at this

end DiceNotation.Binary64
