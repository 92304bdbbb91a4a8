/-
  How long the text of a number is.

  A number is written positionally, so its length is a matter of its size and not of its digits.
  For a value that is not tiny (`smallest` grains or more, which is 2^-30) it is at most 309, the
  sign not counted (`length_plainText_shortest`).

  1. The digits in front of the point are those of the whole part.  A decimal that reads back to a
     value lies below every power of two above the value, because rounding never passes a count that
     is on the grid (`lt_of_nearestGrains_lt`).  So the decimal is no longer than the power of two.
  2. The digits behind the point are no more than the exponent says, and zeros at the end do not
     count (`length_fractionText`).  `shortest` stops at 17 digits; from 2^63 on these all stand in
     front of the point (`scale_of_large`), and otherwise at most 27 are behind it
     (`scale_of_not_tiny`).
  3. If `shortest` had found nothing it would write the exact decimal.  A count of grains that is
     not tiny is a multiple of a large power of two, and so its decimal has at most 82 places and
     not 1074 (`length_plainText_ofGrains`).

  The second and third bound are far from sharp, but the first is: the largest number has 309 digits.
-/
import DiceNotation.Proofs.Binary64.ReadBack

namespace DiceNotation

open Text Binary64

/-! ## Digits -/

namespace Numeral

variable {n k : Nat}

theorem length_ofNat_le (hk : 0 < k) (h : n < 10 ^ k) : (ofNat n).length ≤ k :=
  (Nat.length_toDigits_le_iff (by decide) hk).mpr h

/-- A power of ten appends zeros. -/
theorem ofNat_mul_ten_pow (hn : 0 < n) (z : Nat) :
    ofNat (n * 10 ^ z) = ofNat n ++ List.replicate z '0' := by
  induction z with
  | zero => rw [Nat.pow_zero, Nat.mul_one, List.replicate_zero, List.append_nil]
  | succ z ih =>
    have hpos : 0 < n * 10 ^ z := Nat.mul_pos hn (Nat.pow_pos (by decide))
    have hlast : ofNat (n * 10 ^ z * 10) = ofNat (n * 10 ^ z * 10 / 10)
        ++ [(n * 10 ^ z * 10 % 10).digitChar] :=
      Nat.toDigits_of_base_le (by decide) (by omega)
    rw [Nat.pow_succ, ← Nat.mul_assoc, hlast, Nat.mul_div_cancel _ (by decide), Nat.mul_mod_left, ih,
      List.append_assoc, List.replicate_succ']
    rfl

/-- An integer of 64 bits has at most 19 digits. -/
theorem length_ofInt_le {i : Int} (h : i.natAbs < 2 ^ 63) : (ofInt i).length ≤ 20 := by
  have hdigits : (ofNat i.natAbs).length ≤ 19 := by
    apply length_ofNat_le (by decide)
    omega
  unfold ofInt
  split
  · rw [List.length_cons]
    omega
  · omega

end Numeral

namespace Decimal

/-! ## What stands behind the point -/

theorem length_dropEnd_le (p : Char → Bool) (s : Text) : (Text.dropEnd p s).length ≤ s.length := by
  rw [Text.dropEnd, List.length_reverse]
  calc (s.reverse.dropWhile p).length ≤ s.reverse.length :=
        (List.dropWhile_suffix p).length_le
    _ = s.length := List.length_reverse

/-- Zeros at the end of a fraction are dropped, and with them whatever they stand for. -/
theorem dropEnd_append_zeros (s : Text) (z : Nat) :
    Text.dropEnd (· == '0') (s ++ List.replicate z '0') = Text.dropEnd (· == '0') s := by
  unfold Text.dropEnd
  rw [List.reverse_append, List.reverse_replicate,
    List.dropWhile_append_of_pos fun c hc => by rw [List.eq_of_mem_replicate hc]; rfl]

theorem fractionText_eq (places fraction : Nat) : fractionText places fraction
    = pointed [] (Text.dropEnd (· == '0') (padded places fraction)) :=
  rfl

theorem length_pointed_le (whole fraction : Text) :
    (pointed whole fraction).length ≤ whole.length + (1 + fraction.length) := by
  cases fraction with
  | nil =>
    show (whole ++ []).length ≤ whole.length + 1
    rw [List.append_nil]
    omega
  | cons c fraction =>
    show (whole ++ '.' :: c :: fraction).length ≤ _
    rw [List.length_append, List.length_cons, Nat.add_comm 1]

theorem padded_zero {places : Nat} (hp : 0 < places) :
    padded places 0 = List.replicate places '0' := by
  rw [padded, show Numeral.ofNat 0 = ['0'] from rfl, List.length_singleton,
    show places = places - 1 + 1 by omega, List.replicate_succ']
  rfl

/-- A fraction that is a multiple of a power of ten ends in that many zeros. -/
theorem padded_mul {places p f : Nat} (hle : p ≤ places) (hf : 0 < f) :
    padded places (10 ^ (places - p) * f) = padded p f ++ List.replicate (places - p) '0' := by
  rw [Nat.mul_comm, padded, padded, Numeral.ofNat_mul_ten_pow hf, List.length_append,
    List.length_replicate, List.append_assoc]
  congr 2
  omega

/-- With too many places, those that are not needed are dropped. -/
theorem length_dropEnd_padded_le {places f p : Nat} (hp : 0 < p) (hle : p ≤ places)
    (hlt : 10 ^ (places - p) * f < 10 ^ places) :
    (Text.dropEnd (· == '0') (padded places (10 ^ (places - p) * f))).length ≤ p := by
  rcases Nat.eq_zero_or_pos f with rfl | hf
  · -- no digit but zeros
    have hzeros : padded places (10 ^ (places - p) * 0) = [] ++ List.replicate places '0' := by
      rw [Nat.mul_zero, padded_zero (by omega), List.nil_append]
    rw [hzeros, dropEnd_append_zeros]
    exact Nat.zero_le p
  · have hfp : f < 10 ^ p := by
      apply Nat.lt_of_mul_lt_mul_left (a := 10 ^ (places - p))
      rw [← Nat.pow_add, show places - p + p = places by omega]
      exact hlt
    rw [padded_mul hle hf, dropEnd_append_zeros]
    calc (Text.dropEnd (· == '0') (padded p f)).length ≤ (padded p f).length :=
          length_dropEnd_le _ _
      _ = p := length_padded hp hfp

/-- **A fraction has as many digits as it needs places.** -/
theorem length_fractionText {places fraction p : Nat} (hp : 0 < p) (hlt : fraction < 10 ^ places)
    (hneeds : places ≤ p ∨ 10 ^ (places - p) ∣ fraction) :
    (fractionText places fraction).length ≤ 1 + p := by
  have hkept : (Text.dropEnd (· == '0') (padded places fraction)).length ≤ p := by
    rcases Nat.lt_or_ge p places with hmore | hfew
    · obtain ⟨f, rfl⟩ : 10 ^ (places - p) ∣ fraction := by
        rcases hneeds with h | h
        · omega
        · exact h
      exact length_dropEnd_padded_le hp (Nat.le_of_lt hmore) hlt
    · rcases Nat.eq_zero_or_pos places with rfl | hpos
      · have hnone : fraction = 0 := by
          rw [Nat.pow_zero] at hlt
          omega
        subst hnone
        exact Nat.zero_le p
      · calc (Text.dropEnd (· == '0') (padded places fraction)).length
                ≤ (padded places fraction).length := length_dropEnd_le _ _
          _ = places := length_padded hpos hlt
          _ ≤ p := hfew
  have hpointed := length_pointed_le [] (Text.dropEnd (· == '0') (padded places fraction))
  rw [List.length_nil, ← fractionText_eq] at hpointed
  omega

/-! ## The whole text -/

/-- A whole decimal below a power of ten has at most as many digits. -/
theorem length_plainText_whole {digits e k : Nat} (hdigits : 0 < digits)
    (h : digits * 10 ^ e < 10 ^ k) : (plainText ⟨digits, .ofNat e⟩).length ≤ k := by
  have he : e < k := by
    have hle : 10 ^ e ≤ digits * 10 ^ e := Nat.le_mul_of_pos_left _ hdigits
    exact (Nat.pow_lt_pow_iff_right (by decide)).mp (Nat.lt_of_le_of_lt hle h)
  have hlt : digits < 10 ^ (k - e) := by
    apply Nat.lt_of_mul_lt_mul_right (a := 10 ^ e)
    rw [← Nat.pow_add, show k - e + e = k by omega]
    exact h
  have hlen := Numeral.length_ofNat_le (show 0 < k - e by omega) hlt
  show (Numeral.ofNat digits ++ List.replicate e '0').length ≤ k
  rw [List.length_append, List.length_replicate]
  omega

/-- A decimal with places has its whole digits, a point and the places that it needs. -/
theorem length_plainText_places {digits e k p : Nat} (hk : 0 < k) (hp : 0 < p)
    (h : digits < 10 ^ k * 10 ^ (e + 1))
    (hneeds : e + 1 ≤ p ∨ 10 ^ (e + 1 - p) ∣ digits % 10 ^ (e + 1)) :
    (plainText ⟨digits, .negSucc e⟩).length ≤ k + (1 + p) := by
  have hpow : 0 < 10 ^ (e + 1) := Nat.pow_pos (by decide)
  have hwhole := Numeral.length_ofNat_le hk (Nat.div_lt_of_lt_mul (Nat.mul_comm _ _ ▸ h))
  have hfraction := length_fractionText hp (Nat.mod_lt digits hpow) hneeds
  show (Numeral.ofNat (digits / 10 ^ (e + 1))
    ++ fractionText (e + 1) (digits % 10 ^ (e + 1))).length ≤ _
  rw [List.length_append]
  omega

/-! ## The size of what reads back -/

/-- **A decimal that reads back lies below every grid count above the value.** -/
theorem lt_of_nearestGrains_lt {d : Decimal} {g limit : Nat} (hgrid : spacing limit ∣ limit)
    (hnear : nearestGrains d.grainQuotient.1 d.grainQuotient.2 = g) (h : g < limit) :
    d.grainQuotient.1 < limit * d.grainQuotient.2 := by
  rcases Nat.lt_or_ge d.grainQuotient.1 (limit * d.grainQuotient.2) with hlt | hge
  · exact hlt
  · have hle := le_nearestGrains hgrid d.grainQuotient_den_pos hge
    omega

/-- What reads back to more than nothing has digits. -/
theorem digits_pos_of_readsBack {g : Nat} {d : Decimal} (hg : 0 < g) (h : readsBack g d = true) :
    0 < d.digits := by
  rcases Nat.eq_zero_or_pos d.digits with hzero | hpos
  · unfold readsBack toBinary64 at h
    rw [if_pos hzero] at h
    have hsame : 0 = g := beq_iff_eq.mp h
    omega
  · exact hpos

/-- The least count of grains that is not tiny: 2^-30, a little less than a billionth. -/
def smallest : Nat := 2 ^ 1044

/-- The sizes that matter are powers of two with one exponent between them.  It is kept as a variable
    in what follows, so that nothing computes the powers. -/
theorem exists_exponent : ∃ m, m = 1044 ∧ smallest = 2 ^ m ∧ grainsPerOne = 2 ^ (m + 30) ∧
    ∀ g, ofGrains g = ⟨g * 5 ^ (m + 30), .negSucc (m + 29)⟩ := by
  obtain ⟨p, hp, hone, hexact⟩ := exists_places
  obtain ⟨m, rfl⟩ : ∃ m, p = m + 29 := ⟨1044, hp⟩
  have hm : 1044 = m := by omega
  exact ⟨m, hm.symm, by rw [smallest, hm], hone, hexact⟩

/-- A power of two, as a count of grains. -/
theorem two_pow_grid (k : Nat) : spacing (2 ^ k * grainsPerOne) ∣ 2 ^ k * grainsPerOne := by
  obtain ⟨m, -, -, hone, -⟩ := exists_exponent
  rw [hone, ← Nat.pow_add]
  exact spacing_two_pow_dvd _

/-- The text of a decimal with no places that reads back to a value below a power of two. -/
theorem length_plainText_of_whole {g digits e j k : Nat} (hg : 0 < g)
    (hlt : g < 2 ^ j * grainsPerOne) (hjk : 2 ^ j ≤ 10 ^ k)
    (h : readsBack g ⟨digits, .ofNat e⟩ = true) :
    (plainText ⟨digits, .ofNat e⟩).length ≤ k := by
  have hbound := lt_of_nearestGrains_lt (two_pow_grid j) (nearestGrains_of_readsBack h) hlt
  apply length_plainText_whole (digits_pos_of_readsBack hg h)
  apply Nat.lt_of_lt_of_le _ hjk
  apply Nat.lt_of_mul_lt_mul_right (a := grainsPerOne)
  calc digits * 10 ^ e * grainsPerOne < 2 ^ j * grainsPerOne * 1 := hbound
    _ = 2 ^ j * grainsPerOne := Nat.mul_one _

/-- The text of a decimal with places that reads back to a value below a power of two. -/
theorem length_plainText_of_places {g digits e j k p : Nat} (hlt : g < 2 ^ j * grainsPerOne)
    (hk : 0 < k) (hjk : 2 ^ j ≤ 10 ^ k) (hp : 0 < p) (he : e + 1 ≤ p)
    (h : readsBack g ⟨digits, .negSucc e⟩ = true) :
    (plainText ⟨digits, .negSucc e⟩).length ≤ k + (1 + p) := by
  have hbound := lt_of_nearestGrains_lt (two_pow_grid j) (nearestGrains_of_readsBack h) hlt
  apply length_plainText_places hk hp _ (Or.inl he)
  have hdigits : digits < 2 ^ j * 10 ^ (e + 1) := by
    apply Nat.lt_of_mul_lt_mul_right (a := grainsPerOne)
    calc digits * grainsPerOne < 2 ^ j * grainsPerOne * 10 ^ (e + 1) := hbound
      _ = 2 ^ j * 10 ^ (e + 1) * grainsPerOne := Nat.mul_right_comm _ _ _
  exact Nat.lt_of_lt_of_le hdigits (Nat.mul_le_mul_right _ hjk)

/-! ## Where the search looks -/

theorem exponent_of_mem_pair {p q : Prop} [Decidable p] [Decidable q] {a b : Nat} {exponent : Int}
    {d : Decimal} (h : d ∈ (if p then [⟨a, exponent⟩] else [])
      ++ (if q then [⟨b, exponent⟩] else [])) : d.exponent = exponent := by
  rcases List.mem_append.mp h with h | h
  · split at h
    · rw [List.mem_singleton.mp h]
    · exact absurd h List.not_mem_nil
  · split at h
    · rw [List.mem_singleton.mp h]
    · exact absurd h List.not_mem_nil

theorem exponent_of_mem_neighbours {g : Nat} {exponent : Int} {d : Decimal}
    (h : d ∈ neighbours g exponent) : d.exponent = exponent := by
  unfold neighbours at h
  simp only at h
  -- either neighbour may come first, and the exponent may have either sign
  split at h
  · split at h
    · exact exponent_of_mem_pair h
    · exact exponent_of_mem_pair h
  · split at h
    · exact exponent_of_mem_pair h
    · exact exponent_of_mem_pair h

/-- The shortest decimal has at most 17 digits, or it is the exact one. -/
theorem shortest_cases (g : Nat) :
    (∃ n < 17, (shortest g).exponent = scale g - (n + 1 : Nat) ∧ readsBack g (shortest g) = true)
      ∨ shortest g = ofGrains g := by
  unfold shortest
  simp only
  cases hfound : (List.range 17).findSome? fun n =>
      (neighbours g (scale g - (n + 1 : Nat))).find? (readsBack g) with
  | none => exact Or.inr rfl
  | some d =>
    obtain ⟨n, hn, hd⟩ := List.exists_of_findSome?_eq_some hfound
    exact Or.inl ⟨n, List.mem_range.mp hn, exponent_of_mem_neighbours (List.mem_of_find?_eq_some hd),
      List.find?_some hd⟩

theorem length_bounds (n : Nat) :
    n.log2 * 30103 / 100000 + 1 ≤ length n ∧ length n ≤ n.log2 * 30103 / 100000 + 2 := by
  unfold length
  simp only
  split
  · omega
  · omega

/-- From 2^63 on, 17 digits do not reach behind the point. -/
theorem scale_of_large {g : Nat} (h : 2 ^ 63 * grainsPerOne ≤ g) : 17 ≤ scale g := by
  have hone : grainsPerOne ≤ g := Nat.le_trans (Nat.le_mul_of_pos_left _ (by decide)) h
  have hquot : 2 ^ 63 ≤ g / grainsPerOne := (Nat.le_div_iff_mul_le grainsPerOne_pos).mpr h
  have hlog : 63 ≤ (g / grainsPerOne).log2 :=
    (Nat.le_log2 (Nat.ne_of_gt (Nat.lt_of_lt_of_le (by decide) hquot))).mpr hquot
  have hlen := (length_bounds (g / grainsPerOne)).1
  rw [scale, if_pos hone]
  omega

/-- A value that is not tiny has at most ten zeros right after the point. -/
theorem scale_of_not_tiny {g : Nat} (h : smallest ≤ g) : -10 ≤ scale g := by
  obtain ⟨m, -, hsmallest, hone, -⟩ := exists_exponent
  rw [scale]
  split
  · omega
  · have hquot : (grainsPerOne - 1) / g < 2 ^ 30 := by
      apply Nat.div_lt_of_lt_mul
      calc grainsPerOne - 1 < grainsPerOne := Nat.sub_lt grainsPerOne_pos (by decide)
        _ = smallest * 2 ^ 30 := by rw [hone, hsmallest, Nat.pow_add]
        _ ≤ g * 2 ^ 30 := Nat.mul_le_mul_right _ h
    have hlog : ((grainsPerOne - 1) / g).log2 < 30 := by
      rcases Nat.eq_zero_or_pos ((grainsPerOne - 1) / g) with hzero | hpos
      · rw [hzero]
        decide
      · exact (Nat.log2_lt (Nat.ne_of_gt hpos)).mpr hquot
    have hlen := (length_bounds ((grainsPerOne - 1) / g)).2
    omega

/-! ## The exact decimal -/

theorem smallest_pos : 0 < smallest := by
  obtain ⟨m, -, hsmallest, -⟩ := exists_exponent
  rw [hsmallest]
  exact Nat.two_pow_pos m

theorem two_pow_mul_five_pow (n : Nat) : 2 ^ n * 5 ^ n = 10 ^ n := by
  rw [← Nat.mul_pow]

/-- A count of grains on the grid that is not tiny is a multiple of a large power of two. -/
theorem two_pow_dvd_of_not_tiny {g m : Nat} (hgrid : spacing g ∣ g) (hm : smallest = 2 ^ m)
    (h : smallest ≤ g) : 2 ^ (m - 52) ∣ g := by
  have hlog : m ≤ g.log2 := by
    rw [Nat.le_log2 (Nat.ne_of_gt (Nat.lt_of_lt_of_le smallest_pos h)), ← hm]
    exact h
  exact Nat.dvd_trans (Nat.pow_dvd_pow 2 (by omega)) hgrid

/-- The exact decimal of a count of grains that is not tiny has at most 82 places. -/
theorem length_plainText_ofGrains {g k : Nat} (hgrid : spacing g ∣ g) (h : smallest ≤ g)
    (hk : 0 < k) (hlt : g < 10 ^ k * grainsPerOne) :
    (ofGrains g).plainText.length ≤ k + (1 + 82) := by
  obtain ⟨m, hm, hsmallest, hone, hexact⟩ := exists_exponent
  rw [hexact]
  apply length_plainText_places hk (by decide)
  · calc g * 5 ^ (m + 30) < 10 ^ k * grainsPerOne * 5 ^ (m + 30) :=
          Nat.mul_lt_mul_of_pos_right hlt (Nat.pow_pos (by decide))
      _ = 10 ^ k * 10 ^ (m + 29 + 1) := by
          rw [hone, Nat.mul_assoc, two_pow_mul_five_pow]
  · right
    have hplaces : m + 29 + 1 - 82 = m - 52 := by omega
    have hfew : 10 ^ (m - 52) ∣ g * 5 ^ (m + 30) := by
      have hfive : 5 ^ (m - 52) ∣ 5 ^ (m + 30) := Nat.pow_dvd_pow 5 (by omega)
      have hprod := Nat.mul_dvd_mul (two_pow_dvd_of_not_tiny hgrid hsmallest h) hfive
      rwa [two_pow_mul_five_pow] at hprod
    rw [hplaces]
    exact (Nat.dvd_mod_iff (Nat.pow_dvd_pow 10 (by omega))).mpr hfew

/-- The exact decimal of a whole value has no places. -/
theorem length_plainText_ofGrains_whole {g k : Nat} (hwhole : grainsPerOne ∣ g) (hk : 0 < k)
    (hlt : g < 10 ^ k * grainsPerOne) : (ofGrains g).plainText.length ≤ k := by
  obtain ⟨n, hn⟩ := hwhole
  obtain ⟨m, -, -, hone, hexact⟩ := exists_exponent
  have hpow : 0 < 10 ^ (m + 29 + 1) := Nat.pow_pos (by decide)
  have hdigits : g * 5 ^ (m + 30) = n * 10 ^ (m + 29 + 1) := by
    rw [hn, hone, Nat.mul_comm _ n, Nat.mul_assoc, two_pow_mul_five_pow]
  have hlt : n < 10 ^ k := by
    apply Nat.lt_of_mul_lt_mul_right (a := grainsPerOne)
    rwa [Nat.mul_comm n, ← hn]
  have hnone : fractionText (m + 29 + 1) 0 = [] := by
    have hzeros : padded (m + 29 + 1) 0 = [] ++ List.replicate (m + 29 + 1) '0' := by
      rw [padded, show Numeral.ofNat 0 = ['0'] from rfl, List.replicate_succ']
      rfl
    rw [fractionText_eq, hzeros, dropEnd_append_zeros]
    rfl
  rw [hexact]
  show (Numeral.ofNat (g * 5 ^ (m + 30) / 10 ^ (m + 29 + 1)) ++
    fractionText (m + 29 + 1) (g * 5 ^ (m + 30) % 10 ^ (m + 29 + 1))).length ≤ k
  rw [hdigits, Nat.mul_div_cancel _ hpow, Nat.mul_mod_left, hnone, List.append_nil]
  exact Numeral.length_ofNat_le hk hlt

/-! ## The length of the shortest decimal -/

/-- From 2^52 on a value is whole. -/
theorem grainsPerOne_dvd_of_large {g : Nat} (hgrid : spacing g ∣ g)
    (h : 2 ^ 52 * grainsPerOne ≤ g) : grainsPerOne ∣ g := by
  obtain ⟨m, -, -, hone, -⟩ := exists_exponent
  rw [hone, ← Nat.pow_add] at h
  have hne : g ≠ 0 := Nat.ne_of_gt (Nat.lt_of_lt_of_le (Nat.two_pow_pos _) h)
  have hlog : 52 + (m + 30) ≤ g.log2 := (Nat.le_log2 hne).mpr h
  rw [hone]
  exact Nat.dvd_trans (Nat.pow_dvd_pow 2 (by omega)) hgrid

/-- Every finite number has at most 309 digits in front of the point. -/
theorem exists_wholeLimit_le :
    ∃ j k, k = 309 ∧ wholeLimit = 2 ^ j ∧ 2 ^ j ≤ 10 ^ k := by
  obtain ⟨j, hj, hlimit⟩ := exists_wholeLimit
  obtain ⟨a, ha⟩ : ∃ a, 128 = a := ⟨_, rfl⟩
  obtain ⟨b, hb⟩ : ∃ b, 103 = b := ⟨_, rfl⟩
  have htwos : j = a * 8 := by omega
  have hroots : (2 ^ 128) ^ 8 ≤ (10 ^ 103) ^ 3 := by decide
  refine ⟨j, b * 3, by omega, hlimit, ?_⟩
  rw [htwos, Nat.pow_mul, Nat.pow_mul, ← ha, ← hb]
  exact hroots

theorem length_plainText_shortest_of_large {g : Nat} (hg : Representable g)
    (h : 2 ^ 63 * grainsPerOne ≤ g) : (shortest g).plainText.length ≤ 309 := by
  have hpos : 0 < g := Nat.lt_of_lt_of_le (Nat.mul_pos (by decide) grainsPerOne_pos) h
  obtain ⟨j, k, hk, hj, hten⟩ := exists_wholeLimit_le
  have hlimit : g < 2 ^ j * grainsPerOne := by
    rw [← hj, ← grainLimit_eq]
    exact hg.1
  rw [← hk]
  rcases shortest_cases g with ⟨n, hn, hexp, hreads⟩ | hexact
  · have hscale := scale_of_large h
    generalize shortest g = d at hexp hreads
    obtain ⟨digits, exponent⟩ := d
    cases exponent with
    | ofNat e => exact length_plainText_of_whole hpos hlimit hten hreads
    | negSucc e =>
      -- no place is left for digits behind the point
      simp only [Int.negSucc_eq] at hexp
      omega
  · have hwhole : grainsPerOne ∣ g :=
      grainsPerOne_dvd_of_large hg.2 (Nat.le_trans (Nat.mul_le_mul_right _ (by decide)) h)
    rw [hexact]
    exact length_plainText_ofGrains_whole hwhole (by omega)
      (Nat.lt_of_lt_of_le hlimit (Nat.mul_le_mul_right _ hten))

theorem length_plainText_shortest_of_small {g : Nat} (hg : Representable g) (h : smallest ≤ g)
    (hlt : g < 2 ^ 63 * grainsPerOne) : (shortest g).plainText.length ≤ 102 := by
  have hpos : 0 < g := Nat.lt_of_lt_of_le smallest_pos h
  have hten : 2 ^ 63 ≤ 10 ^ 19 := by decide
  rcases shortest_cases g with ⟨n, hn, hexp, hreads⟩ | hexact
  · have hscale := scale_of_not_tiny h
    generalize shortest g = d at hexp hreads
    obtain ⟨digits, exponent⟩ := d
    cases exponent with
    | ofNat e =>
      calc (plainText ⟨digits, .ofNat e⟩).length ≤ 19 :=
            length_plainText_of_whole hpos hlt hten hreads
        _ ≤ 102 := by decide
    | negSucc e =>
      have he : e + 1 ≤ 27 := by
        simp only [Int.negSucc_eq] at hexp
        omega
      calc (plainText ⟨digits, .negSucc e⟩).length ≤ 19 + (1 + 27) :=
            length_plainText_of_places hlt (by decide) hten (by decide) he hreads
        _ ≤ 102 := by decide
  · rw [hexact]
    exact length_plainText_ofGrains hg.2 h (by decide)
      (Nat.lt_of_lt_of_le hlt (Nat.mul_le_mul_right _ hten))

/-- **A value that is not tiny is written with at most 309 characters**, its sign not counted. -/
theorem length_plainText_shortest {g : Nat} (hg : Representable g) (h : smallest ≤ g) :
    (shortest g).plainText.length ≤ 309 := by
  rcases Nat.lt_or_ge g (2 ^ 63 * grainsPerOne) with hsmall | hlarge
  · exact Nat.le_trans (length_plainText_shortest_of_small hg h hsmall) (by decide)
  · exact length_plainText_shortest_of_large hg hlarge

end Decimal

/-! ## The length of a number -/

theorem Binary64.length_signText_le (negative : Bool) : (signText negative).length ≤ 1 := by
  cases negative with
  | true => exact Nat.le_refl 1
  | false => exact Nat.zero_le 1

/-- A number that is not tiny, or is none, is written with at most 310 characters. -/
theorem Binary64.length_text_le {x : Binary64}
    (h : ∀ negative grains hg, x = finite negative grains hg → Decimal.smallest ≤ grains) :
    x.text.length ≤ 310 := by
  cases x with
  | nan => exact (by decide : 3 ≤ 310)
  | infinite negative =>
    have hsign := length_signText_le negative
    show (signText negative ++ ['i', 'n', 'f']).length ≤ 310
    rw [List.length_append]
    show (signText negative).length + 3 ≤ 310
    omega
  | finite negative grains hg =>
    have hnot := h negative grains hg rfl
    have hsign := length_signText_le negative
    have hlen := Decimal.length_plainText_shortest hg hnot
    have hzero : grains ≠ 0 := Nat.ne_of_gt (Nat.lt_of_lt_of_le Decimal.smallest_pos hnot)
    rw [text, if_neg hzero, List.length_append]
    omega

end DiceNotation
