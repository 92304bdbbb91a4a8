/-
  Numbers read back.

  `ofText? x.text = some x` for every finite `x` (`ofText?_text`).  Two things stand between the two
  texts and the number.

  1. Reading goes through a `Decimal`, and so does writing, but they need not be the same one:
     `1e21` is written `1000000000000000000000`, and zeros at the end of a fraction are left out.
     Only the value of a decimal counts for the number that it is rounded to
     (`toBinary64_congr`).  For this the two cut-offs of `toBinary64` have to be seen through first:
     they give what rounding gives (`toBinary64_eq_ofQuotient`).
  2. `shortest` only returns what reads back.  Each candidate has been tried, and if none had been
     found the exact decimal reads back because rounding does not move what is on the grid
     (`toBinary64_shortest`).

  Between the two stands the text itself: what `plainText` writes is read as a decimal of the same
  value, though with other digits and another exponent (`decimal?_plainText`).
-/
import Mathlib.Data.List.TakeWhile
import DiceNotation.Sigil
import DiceNotation.Binary64.Plain
import DiceNotation.Proofs.Binary64.Order
import DiceNotation.Proofs.Numeral.ReadBack

namespace DiceNotation

open Text Binary64

/-! ## Rounding a quotient -/

namespace Binary64

theorem ofQuotient_of_nearest {negative : Bool} {num den g : Nat} (hg : Representable g)
    (h : nearestGrains num den = g) : ofQuotient negative num den = finite negative g hg := by
  subst h
  exact dif_pos hg.1

theorem ofQuotient_of_limit {negative : Bool} {num den : Nat}
    (h : grainLimit ≤ nearestGrains num den) :
    ofQuotient negative num den = infinite negative :=
  dif_neg (Nat.not_lt.mpr h)

theorem ofQuotient_zero (negative : Bool) (den : Nat) : ofQuotient negative 0 den = zero negative :=
  ofQuotient_of_nearest representable_zero (nearestGrains_zero den)

theorem ofQuotient_congr (negative : Bool) {num den num' den' : Nat} (hden : 0 < den)
    (hden' : 0 < den') (h : num * den' = num' * den) :
    ofQuotient negative num den = ofQuotient negative num' den' := by
  have heq := nearestGrains_congr hden hden' h
  rcases Nat.lt_or_ge (nearestGrains num' den') grainLimit with hlt | hge
  · rw [ofQuotient_of_nearest ⟨hlt, nearestGrains_spaced _ _⟩ heq,
      ofQuotient_of_nearest ⟨hlt, nearestGrains_spaced _ _⟩ rfl]
  · rw [ofQuotient_of_limit (heq ▸ hge), ofQuotient_of_limit hge]

end Binary64

namespace Decimal

/-! ## The value of a decimal -/

theorem grainQuotient_den_pos (d : Decimal) : 0 < d.grainQuotient.2 := by
  unfold grainQuotient
  split
  · exact Nat.one_pos
  · exact Nat.pow_pos (by decide)

/-- The quotient of a decimal, after enough powers of ten to make it whole. -/
theorem grainQuotient_mul {d : Decimal} {p : Nat} (hp : 0 ≤ d.exponent + p) :
    d.grainQuotient.1 * 10 ^ p
      = d.digits * 10 ^ (d.exponent + p).toNat * grainsPerOne * d.grainQuotient.2 := by
  obtain ⟨digits, exponent⟩ := d
  cases exponent with
  | ofNat e =>
    have hsum : (Int.ofNat e + (p : Int)).toNat = e + p := by
      simp only [Int.ofNat_eq_natCast]
      omega
    simp only [grainQuotient, hsum, Nat.pow_add, Nat.mul_one]
    generalize grainsPerOne = one
    ac_rfl
  | negSucc e =>
    have hsum : e + 1 + (Int.negSucc e + (p : Int)).toNat = p := by
      simp only [Int.negSucc_eq] at hp ⊢
      omega
    have hpow : 10 ^ p = 10 ^ (e + 1) * 10 ^ (Int.negSucc e + (p : Int)).toNat := by
      rw [← Nat.pow_add, hsum]
    simp only [grainQuotient, hpow]
    generalize grainsPerOne = one
    ac_rfl

theorem grainsPerOne_pos : 0 < grainsPerOne := by
  unfold grainsPerOne
  apply Nat.pow_pos
  decide

theorem two_pow_le_ten_pow {k e : Nat} (h : k ≤ 3 * e) : 2 ^ k ≤ 10 ^ e :=
  calc 2 ^ k ≤ 2 ^ (3 * e) := Nat.pow_le_pow_right (by decide) h
    _ = 8 ^ e := by rw [Nat.pow_mul]
    _ ≤ 10 ^ e := Nat.pow_le_pow_left (by decide) e

/-- One is a power of two, counted in grains, and the decimal of a count of grains has as many places.
    The exponent is kept as a variable in what follows, so that nothing computes the powers. -/
theorem exists_places : ∃ p, p = 1073 ∧ grainsPerOne = 2 ^ (p + 1) ∧
    ∀ g, ofGrains g = ⟨g * 5 ^ (p + 1), .negSucc p⟩ := by
  obtain ⟨p, hp⟩ : ∃ p, 1073 = p := ⟨_, rfl⟩
  have hone : 1074 = p + 1 := by omega
  have hplaces : (-1074 : Int) = .negSucc p := by
    rw [Int.negSucc_eq]
    omega
  refine ⟨p, hp.symm, ?_, fun g => ?_⟩
  · rw [grainsPerOne, hone]
  · rw [ofGrains, hplaces, hone]

/-- The limit, counted in ones. -/
def wholeLimit : Nat := 2 ^ 1024

/-- It is a power of two, of which the exponent is kept as a variable, so that nothing computes the
    power. -/
theorem exists_wholeLimit : ∃ e, e = 1024 ∧ wholeLimit = 2 ^ e := by
  obtain ⟨e, he⟩ : ∃ e, 1024 = e := ⟨_, rfl⟩
  exact ⟨e, he.symm, by rw [wholeLimit, he]⟩

theorem grainLimit_eq : grainLimit = wholeLimit * grainsPerOne := by
  obtain ⟨e, he, hlimit⟩ := exists_wholeLimit
  obtain ⟨p, hp, hone, -⟩ := exists_places
  have hsum : 2098 = e + (p + 1) := by omega
  rw [grainLimit, hlimit, hone, hsum, Nat.pow_add]

/-- Whole numbers of 64 bits are far below the limit. -/
theorem mul_grainsPerOne_lt_grainLimit {n : Nat} (h : n ≤ 2 ^ 64) :
    n * grainsPerOne < grainLimit := by
  obtain ⟨e, he, hlimit⟩ := exists_wholeLimit
  have hword : 2 ^ 64 < 2 ^ e := Nat.pow_lt_pow_right (by decide) (by omega)
  rw [grainLimit_eq, hlimit]
  exact Nat.mul_lt_mul_of_pos_right (Nat.lt_of_le_of_lt h hword) grainsPerOne_pos

/-- A power of ten that is cut off is past the limit. -/
theorem grainLimit_le {n e : Nat} (hn : 1 ≤ n) (he : 401 ≤ e) :
    grainLimit ≤ n * 10 ^ e * grainsPerOne := by
  obtain ⟨k, hk, hlimit⟩ := exists_wholeLimit
  have hpow : 2 ^ k ≤ 10 ^ e := two_pow_le_ten_pow (by omega)
  rw [grainLimit_eq, hlimit]
  exact Nat.mul_le_mul_right _ (Nat.le_trans hpow (Nat.le_mul_of_pos_left _ hn))

/-- A count of digits that is far below its power of ten is less than half a grain. -/
theorem half_grain_lt {n e : Nat} (h : n.log2 + 402 ≤ e) : 2 * (n * grainsPerOne) < 10 ^ e := by
  obtain ⟨p, hp, hone, -⟩ := exists_places
  have hn : n < 2 ^ (n.log2 + 1) := Nat.lt_log2_self
  have hpos : 0 < 2 * grainsPerOne := Nat.mul_pos Nat.two_pos grainsPerOne_pos
  calc 2 * (n * grainsPerOne) = n * (2 * grainsPerOne) := Nat.mul_left_comm _ _ _
    _ < 2 ^ (n.log2 + 1) * (2 * grainsPerOne) := Nat.mul_lt_mul_of_pos_right hn hpos
    _ = 2 ^ (n.log2 + 1 + (1 + (p + 1))) := by
        rw [Nat.pow_add _ _ (1 + (p + 1)), Nat.pow_add 2 1 (p + 1), Nat.pow_one, hone]
    _ ≤ 10 ^ e := two_pow_le_ten_pow (by omega)

/-- What is cut off as too large rounds to infinity: the limit itself is on the grid, and is not
    passed. -/
theorem ofQuotient_of_large (negative : Bool) {n e : Nat} (hn : 1 ≤ n) (he : 401 ≤ e) :
    ofQuotient negative (n * 10 ^ e * grainsPerOne) 1 = infinite negative := by
  have hgrid : spacing grainLimit ∣ grainLimit := by
    unfold grainLimit
    exact spacing_two_pow_dvd 2098
  apply ofQuotient_of_limit
  apply le_nearestGrains hgrid Nat.one_pos
  rw [Nat.mul_one]
  exact grainLimit_le hn he

/-- What is cut off as too small rounds to zero. -/
theorem ofQuotient_of_small (negative : Bool) {n e : Nat} (h : n.log2 + 402 ≤ e) :
    ofQuotient negative (n * grainsPerOne) (10 ^ e) = zero negative :=
  ofQuotient_of_nearest representable_zero (nearestGrains_eq_zero (half_grain_lt h))

/-- **The cut-offs change nothing.**  Reading a decimal is rounding its quotient. -/
theorem toBinary64_eq_ofQuotient (negative : Bool) (d : Decimal) :
    d.toBinary64 negative = ofQuotient negative d.grainQuotient.1 d.grainQuotient.2 := by
  obtain ⟨digits, exponent⟩ := d
  unfold toBinary64
  split
  · -- no digits, so the quotient is zero
    rename_i hzero
    obtain rfl : digits = 0 := hzero
    have hnum : (Decimal.mk 0 exponent).grainQuotient.1 = 0 := by
      cases exponent with
      | ofNat e => simp [grainQuotient]
      | negSucc e => simp [grainQuotient]
    rw [hnum, ofQuotient_zero]
  · rename_i hdigits
    split
    · rename_i hlarge
      cases exponent with
      | negSucc e => exact absurd hlarge (by simp only [Int.negSucc_eq]; omega)
      | ofNat e =>
        have he : 401 ≤ e := by
          simp only [Int.ofNat_eq_natCast] at hlarge
          omega
        exact (ofQuotient_of_large negative (Nat.pos_of_ne_zero hdigits) he).symm
    · split
      · rename_i hsmall
        cases exponent with
        | ofNat e => exact absurd hsmall (by simp only [Int.ofNat_eq_natCast]; omega)
        | negSucc e =>
          have he : digits.log2 + 402 ≤ e + 1 := by
            simp only [Int.negSucc_eq] at hsmall
            omega
          exact (ofQuotient_of_small negative he).symm
      · rfl

/-- **Decimals of one value are one number.** -/
theorem toBinary64_congr (negative : Bool) {d d' : Decimal} (p : Nat) (hp : 0 ≤ d.exponent + p)
    (hp' : 0 ≤ d'.exponent + p)
    (h : d.digits * 10 ^ (d.exponent + p).toNat = d'.digits * 10 ^ (d'.exponent + p).toNat) :
    d.toBinary64 negative = d'.toBinary64 negative := by
  rw [toBinary64_eq_ofQuotient, toBinary64_eq_ofQuotient]
  refine ofQuotient_congr negative d.grainQuotient_den_pos d'.grainQuotient_den_pos ?_
  have hpow : 0 < 10 ^ p := Nat.pow_pos (by decide)
  apply Nat.eq_of_mul_eq_mul_right hpow
  calc d.grainQuotient.1 * d'.grainQuotient.2 * 10 ^ p
      = d.grainQuotient.1 * 10 ^ p * d'.grainQuotient.2 := Nat.mul_right_comm _ _ _
    _ = d'.grainQuotient.1 * 10 ^ p * d.grainQuotient.2 := by
        rw [grainQuotient_mul hp, grainQuotient_mul hp', h]
        exact Nat.mul_right_comm _ _ _
    _ = d'.grainQuotient.1 * d.grainQuotient.2 * 10 ^ p := Nat.mul_right_comm _ _ _

/-! ## The shortest decimal -/

theorem nearestGrains_of_readsBack {g : Nat} {d : Decimal} (h : readsBack g d = true) :
    nearestGrains d.grainQuotient.1 d.grainQuotient.2 = g := by
  unfold readsBack at h
  rw [toBinary64_eq_ofQuotient] at h
  rcases Nat.lt_or_ge (nearestGrains d.grainQuotient.1 d.grainQuotient.2) grainLimit with hlt | hge
  · rw [ofQuotient_of_nearest ⟨hlt, nearestGrains_spaced _ _⟩ rfl] at h
    exact beq_iff_eq.mp h
  · rw [ofQuotient_of_limit hge] at h
    exact nomatch h

theorem mul_five_pow_mul_two_pow (g n : Nat) : g * 5 ^ n * 2 ^ n = g * 10 ^ n := by
  rw [Nat.mul_assoc, ← Nat.mul_pow]

/-- Every count of grains is a decimal, exactly. -/
theorem nearestGrains_ofGrains {g : Nat} (h : spacing g ∣ g) :
    nearestGrains (ofGrains g).grainQuotient.1 (ofGrains g).grainQuotient.2 = g := by
  obtain ⟨p, -, hone, hexact⟩ := exists_places
  have hnum : (ofGrains g).grainQuotient.1 = g * 10 ^ (p + 1) := by
    rw [hexact]
    show g * 5 ^ (p + 1) * grainsPerOne = _
    rw [hone, mul_five_pow_mul_two_pow]
  have hden : (ofGrains g).grainQuotient.2 = 10 ^ (p + 1) := by
    rw [hexact]
    rfl
  rw [hnum, hden]
  exact nearestGrains_exact h (Nat.pow_pos (by decide))

/-- **The shortest decimal reads back**, whatever the search has come to. -/
theorem toBinary64_shortest (negative : Bool) {g : Nat} (h : Representable g) :
    (shortest g).toBinary64 negative = finite negative g h := by
  have hnear : nearestGrains (shortest g).grainQuotient.1 (shortest g).grainQuotient.2 = g := by
    unfold shortest
    simp only
    cases hfound : (List.range 17).findSome? fun n =>
        (neighbours g (scale g - (n + 1 : Nat))).find? (readsBack g) with
    | none => exact nearestGrains_ofGrains h.2
    | some d =>
      obtain ⟨n, -, hn⟩ := List.exists_of_findSome?_eq_some hfound
      exact nearestGrains_of_readsBack (List.find?_some hn)
  rw [toBinary64_eq_ofQuotient, ofQuotient_of_nearest h hnear]

/-! ## A decimal and its text -/

/-- Nothing but decimal digits. -/
def AllDigits (s : Text) : Prop :=
  ∀ c ∈ s, c.isDigit = true

theorem allDigits_ofNat (n : Nat) : AllDigits (Numeral.ofNat n) :=
  fun _ hc => Numeral.isDigit_of_mem_ofNat hc

theorem allDigits_append {s t : Text} : AllDigits (s ++ t) ↔ AllDigits s ∧ AllDigits t :=
  List.forall_mem_append

theorem allDigits_zeros (n : Nat) : AllDigits (List.replicate n '0') := by
  intro c hc
  rw [List.eq_of_mem_replicate hc]
  decide

theorem AllDigits.subset_figures {s : Text} (h : AllDigits s) : s ⊆ Numeral.figures :=
  fun c hc => Numeral.mem_figures_of_isDigit (h c hc)

theorem decimal?_of_allDigits {w : Text} (hne : w ≠ []) (hw : AllDigits w) :
    decimal? w = some ⟨Numeral.value w, 0⟩ := by
  have htake : w.takeWhile Char.isDigit = w := List.takeWhile_eq_self_iff.mpr hw
  have hdrop : w.dropWhile Char.isDigit = [] := List.dropWhile_eq_nil_iff.mpr hw
  simp only [decimal?, htake, hdrop, hne, false_and, if_false, exponent?, Option.map_some,
    List.append_nil, List.length_nil, Int.natCast_zero, Int.sub_zero]

theorem decimal?_of_point {w f : Text} (hne : w ≠ []) (hw : AllDigits w) (hf : AllDigits f) :
    decimal? (w ++ '.' :: f) = some ⟨Numeral.value (w ++ f), -(f.length : Int)⟩ := by
  have htake : (w ++ '.' :: f).takeWhile Char.isDigit = w := by
    rw [List.takeWhile_append_of_pos hw]
    exact List.append_nil w
  have hdrop : (w ++ '.' :: f).dropWhile Char.isDigit = '.' :: f := by
    rw [List.dropWhile_append_of_pos hw]
    rfl
  have htake' : f.takeWhile Char.isDigit = f := List.takeWhile_eq_self_iff.mpr hf
  have hdrop' : f.dropWhile Char.isDigit = [] := List.dropWhile_eq_nil_iff.mpr hf
  simp only [decimal?, htake, hdrop, htake', hdrop', hne, false_and, if_false, exponent?,
    Option.map_some, Int.zero_sub]

/-- Digits, and a point with more digits if there are more. -/
def pointed (whole fraction : Text) : Text :=
  whole ++ match fraction with
    | [] => []
    | kept => '.' :: kept

theorem decimal?_pointed {w f : Text} (hne : w ≠ []) (hw : AllDigits w) (hf : AllDigits f) :
    decimal? (pointed w f) = some ⟨Numeral.value (w ++ f), -(f.length : Int)⟩ := by
  cases f with
  | nil =>
    show decimal? (w ++ []) = some ⟨Numeral.value (w ++ []), 0⟩
    rw [List.append_nil, decimal?_of_allDigits hne hw]
  | cons c f => exact decimal?_of_point hne hw hf

/-- The digits of a fraction, before zeros at its end are left out. -/
def padded (places fraction : Nat) : Text :=
  List.replicate (places - (Numeral.ofNat fraction).length) '0' ++ Numeral.ofNat fraction

theorem length_padded {places fraction : Nat} (hplaces : 0 < places)
    (h : fraction < 10 ^ places) : (padded places fraction).length = places := by
  have hlen : (Numeral.ofNat fraction).length ≤ places :=
    (Nat.length_toDigits_le_iff (by decide) hplaces).mpr h
  rw [padded, List.length_append, List.length_replicate]
  omega

theorem value_padded (places fraction : Nat) :
    Numeral.value (padded places fraction) = fraction := by
  rw [padded, Numeral.value_zeros_append, Numeral.value_ofNat]

theorem allDigits_padded (places fraction : Nat) : AllDigits (padded places fraction) :=
  allDigits_append.mpr ⟨allDigits_zeros _, allDigits_ofNat _⟩

/-- Zeros at the end are written out before the point. -/
theorem decimal?_plainText_whole (digits e : Nat) :
    ∃ again, decimal? (plainText ⟨digits, .ofNat e⟩) = some again
      ∧ ∀ negative, again.toBinary64 negative = toBinary64 negative ⟨digits, .ofNat e⟩ := by
  have hne : Numeral.ofNat digits ++ List.replicate e '0' ≠ [] :=
    List.append_ne_nil_of_left_ne_nil (Numeral.ofNat_ne_nil _) _
  have hdigits := allDigits_append.mpr ⟨allDigits_ofNat digits, allDigits_zeros e⟩
  refine ⟨_, decimal?_of_allDigits hne hdigits, fun negative => ?_⟩
  show toBinary64 negative ⟨Numeral.value (Numeral.ofNat digits ++ List.replicate e '0'), 0⟩ = _
  rw [Numeral.value_append_zeros, Numeral.value_ofNat]
  -- both exponents are whole already, so no power of ten has to be lent
  apply toBinary64_congr negative 0
  · exact Int.le_refl 0
  · exact Int.natCast_nonneg e
  · show digits * 10 ^ e * 1 = digits * 10 ^ e
    rw [Nat.mul_one]

/-- Zeros at the end are left out after the point. -/
theorem decimal?_plainText_fraction (digits e : Nat) :
    ∃ again, decimal? (plainText ⟨digits, .negSucc e⟩) = some again
      ∧ ∀ negative, again.toBinary64 negative = toBinary64 negative ⟨digits, .negSucc e⟩ := by
  have hpow : 0 < 10 ^ (e + 1) := Nat.pow_pos (by decide)
  have hlt : digits % 10 ^ (e + 1) < 10 ^ (e + 1) := Nat.mod_lt _ hpow
  obtain ⟨z, hz⟩ := dropEnd_append_replicate '0' (padded (e + 1) (digits % 10 ^ (e + 1)))
  have hlen := length_padded (Nat.succ_pos e) hlt
  have hval := value_padded (e + 1) (digits % 10 ^ (e + 1))
  have hall := allDigits_padded (e + 1) (digits % 10 ^ (e + 1))
  show ∃ again, decimal? (pointed (Numeral.ofNat (digits / 10 ^ (e + 1)))
    (Text.dropEnd (· == '0') (padded (e + 1) (digits % 10 ^ (e + 1))))) = some again ∧ _
  generalize Text.dropEnd (· == '0') (padded (e + 1) (digits % 10 ^ (e + 1))) = kept at hz
  generalize padded (e + 1) (digits % 10 ^ (e + 1)) = written at hz hlen hval hall
  subst hz
  have hkept := (allDigits_append.mp hall).1
  refine ⟨_, decimal?_pointed (Numeral.ofNat_ne_nil _) (allDigits_ofNat _) hkept,
    fun negative => ?_⟩
  rw [List.length_append, List.length_replicate] at hlen
  -- as many places as were written before the zeros at the end were left out
  apply toBinary64_congr negative (e + 1)
  · simp only
    omega
  · simp only [Int.negSucc_eq]
    omega
  · have hleft : (-(kept.length : Int) + (e + 1 : Nat)).toNat = z := by omega
    have hright : (Int.negSucc e + (e + 1 : Nat)).toNat = 0 := by omega
    simp only [hleft, hright, Nat.pow_zero, Nat.mul_one]
    rw [← Numeral.value_append_zeros, List.append_assoc, Numeral.value_append, hval,
      Numeral.value_ofNat, List.length_append, List.length_replicate, hlen]
    exact Nat.div_add_mod' digits (10 ^ (e + 1))

/-- **A decimal is written as one of the same value.** -/
theorem decimal?_plainText (d : Decimal) :
    ∃ again, decimal? d.plainText = some again
      ∧ ∀ negative, again.toBinary64 negative = d.toBinary64 negative := by
  obtain ⟨digits, exponent⟩ := d
  cases exponent with
  | ofNat e => exact decimal?_plainText_whole digits e
  | negSucc e => exact decimal?_plainText_fraction digits e

theorem pointed_subset_figures {w f : Text} (hw : AllDigits w) (hf : AllDigits f) :
    pointed w f ⊆ Numeral.figures := by
  cases f with
  | nil =>
    show w ++ [] ⊆ _
    rw [List.append_nil]
    exact hw.subset_figures
  | cons c f =>
    refine List.append_subset.mpr ⟨hw.subset_figures, List.cons_subset.mpr ⟨by decide, ?_⟩⟩
    exact hf.subset_figures

theorem allDigits_dropEnd {p : Char → Bool} {s : Text} (h : AllDigits s) :
    AllDigits (Text.dropEnd p s) := by
  have hsub : Text.dropEnd p s <+: s := by
    obtain h := List.reverse_prefix.mpr (List.dropWhile_suffix p (l := s.reverse))
    rwa [List.reverse_reverse] at h
  exact fun c hc => h c (hsub.subset hc)

theorem plainText_subset_figures (d : Decimal) : d.plainText ⊆ Numeral.figures := by
  obtain ⟨digits, exponent⟩ := d
  cases exponent with
  | ofNat e =>
    exact (allDigits_append.mpr ⟨allDigits_ofNat digits, allDigits_zeros e⟩).subset_figures
  | negSucc e =>
    exact pointed_subset_figures (allDigits_ofNat _) (allDigits_dropEnd (allDigits_padded _ _))

theorem plainText_ne_nil (d : Decimal) : d.plainText ≠ [] := by
  obtain ⟨digits, exponent⟩ := d
  cases exponent with
  | ofNat e => exact List.append_ne_nil_of_left_ne_nil (Numeral.ofNat_ne_nil _) _
  | negSucc e => exact List.append_ne_nil_of_left_ne_nil (Numeral.ofNat_ne_nil _) _

end Decimal

/-! ## A number and its text -/

namespace Binary64

variable {x : Binary64}

theorem takeSign_of_freeOf {s : Text} (h : s.FreeOf Operator.isSigil) :
    takeSign s = (false, s) := by
  unfold takeSign
  split
  · exact nomatch h '+' List.mem_cons_self
  · exact nomatch h '-' List.mem_cons_self
  · rfl

theorem takeSign_signText (negative : Bool) {s : Text} (h : s.FreeOf Operator.isSigil) :
    takeSign (signText negative ++ s) = (negative, s) := by
  cases negative with
  | true => rfl
  | false => exact takeSign_of_freeOf h

/-- A finite number is written as a sign and a decimal in figures, which is rounded back to it. -/
theorem text_finite (negative : Bool) (grains : Nat) (h : Representable grains) :
    ∃ digits, (finite negative grains h).text = signText negative ++ digits ∧ digits ≠ []
      ∧ digits ⊆ Numeral.figures
      ∧ ∃ d, decimal? digits = some d ∧ d.toBinary64 negative = finite negative grains h := by
  by_cases hzero : grains = 0
  · -- zero is written as a digit of its own, for its decimal has no leading digit to find
    subst hzero
    refine ⟨['0'], by rw [text, if_pos rfl], List.cons_ne_nil _ _, by decide, ⟨0, 0⟩, by decide, ?_⟩
    rw [Decimal.toBinary64, if_pos rfl, zero]
  · obtain ⟨d, hread, hsame⟩ := (Decimal.shortest grains).decimal?_plainText
    refine ⟨(Decimal.shortest grains).plainText, by rw [text, if_neg hzero],
      Decimal.plainText_ne_nil _, Decimal.plainText_subset_figures _, d, hread, ?_⟩
    rw [hsame, Decimal.toBinary64_shortest negative h]

/-- **A finite number reads back**, the zero below zero too. -/
theorem ofText?_text (h : x.isFinite = true) : ofText? x.text = some x := by
  cases x with
  | nan => exact nomatch h
  | infinite negative => exact nomatch h
  | finite negative grains hgrains =>
    obtain ⟨digits, htext, -, hfigures, d, hread, hvalue⟩ := text_finite negative grains hgrains
    rw [htext, ofText?, takeSign_signText negative (Numeral.freeOf_of_figures hfigures (by decide))]
    simp only [hread, Option.map_some, hvalue]

/-- A number without a sign is written in figures. -/
theorem text_subset_figures (hfin : x.isFinite = true) (hneg : x.isNegative = false) :
    x.text ⊆ Numeral.figures := by
  cases x with
  | nan => exact nomatch hfin
  | infinite negative => exact nomatch hfin
  | finite negative grains hgrains =>
    obtain rfl : negative = false := hneg
    obtain ⟨digits, htext, -, hfigures, -⟩ := text_finite false grains hgrains
    rw [htext]
    exact hfigures

theorem text_ne_nil (x : Binary64) : x.text ≠ [] := by
  cases x with
  | nan => exact List.cons_ne_nil _ _
  | infinite negative => exact List.append_ne_nil_of_right_ne_nil _ (List.cons_ne_nil _ _)
  | finite negative grains hgrains =>
    obtain ⟨digits, htext, hne, -⟩ := text_finite negative grains hgrains
    rw [htext]
    exact List.append_ne_nil_of_right_ne_nil _ hne

end Binary64

end DiceNotation
