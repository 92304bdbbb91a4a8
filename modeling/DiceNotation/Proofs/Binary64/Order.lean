/-
  The order of binary64 numbers, and the operations that keep it.

  `atMost` compares places on a line of integers (`rank?`), so everything here is about places.

  1. An exact result goes to `place num den`, its nearest place that is not beyond the limit
     (`rank?_ofQuotient`), and places keep the order of exact results (`place_mono`).
  2. So converting an integer keeps the order, and so do adding, subtracting, multiplying by and
     dividing by what is not negative (`add_atMost_add`, `sub_atMost_sub`, `mul_atMost_mul`,
     `div_atMost_div`).  The infinities are dealt with first: the two ends of the line bound
     everything, and only what is itself at an end can lie beyond them.
  3. What is not a number compares with nothing and stays what it is, so each of these laws asks for
     results that are numbers, and a sum that is a number has only numbers in it
     (`sum_atMost_sum`).
-/
import DiceNotation.Binary64.Arithmetic
import DiceNotation.Proofs.Binary64.Rounding

namespace DiceNotation.Binary64

variable {x y z a b : Binary64}

/-! ## Places -/

/-- The place of a signed quotient of grains, the limit if it is beyond that. -/
def place (num : Int) (den : Nat) : Int :=
  signed (decide (num < 0)) (min (nearestGrains num.natAbs den) grainLimit)

/-- **Places keep the order of exact results.** -/
theorem place_mono (den : Nat) {m n : Int} (h : m ≤ n) : place m den ≤ place n den := by
  unfold place signed
  by_cases hm : m < 0
  · by_cases hn : n < 0
    · -- below zero the magnitudes are in the opposite order
      have := nearestGrains_mono den (show n.natAbs ≤ m.natAbs by omega)
      simp only [hm, hn, decide_true, if_true]
      omega
    · simp only [hm, hn, decide_true, decide_false, if_true, Bool.false_eq_true, if_false]
      omega
  · have hn : ¬ n < 0 := by omega
    have := nearestGrains_mono den (show m.natAbs ≤ n.natAbs by omega)
    simp only [hm, hn, decide_false, Bool.false_eq_true, if_false]
    omega

theorem place_signed (negative : Bool) (num den : Nat) :
    place (signed negative num) den = signed negative (min (nearestGrains num den) grainLimit) := by
  cases negative with
  | false =>
    have hnot : ¬ (num : Int) < 0 := by omega
    simp only [place, signed, Bool.false_eq_true, if_false, hnot, decide_false, Int.natAbs_natCast]
  | true =>
    rcases Nat.eq_zero_or_pos num with rfl | hpos
    · simp [place, signed, nearestGrains_zero]
    · have hneg : -(num : Int) < 0 := by omega
      simp only [place, signed, if_true, hneg, decide_true, Int.natAbs_neg, Int.natAbs_natCast]

theorem rank?_ofQuotient (negative : Bool) (num den : Nat) :
    (ofQuotient negative num den).rank? = some (place (signed negative num) den) := by
  rw [place_signed]
  unfold ofQuotient
  split
  · rename_i h
    rw [Nat.min_eq_left (Nat.le_of_lt h)]
    rfl
  · rename_i h
    rw [Nat.min_eq_right (Nat.le_of_not_lt h)]
    rfl

theorem rank?_ofSigned (zeroNegative : Bool) (grains : Int) :
    (ofSigned zeroNegative grains).rank? = some (place grains 1) := by
  rw [ofSigned, rank?_ofQuotient]
  congr 2
  unfold signed
  split
  · split <;> omega
  · by_cases h : grains < 0
    · simp only [h, decide_true, if_true]
      omega
    · simp only [h, decide_false, Bool.false_eq_true, if_false]
      omega

theorem rank?_ofInt (i : Int) : (ofInt i).rank? = some (place (i * grainsPerOne) 1) :=
  rank?_ofSigned _ _

/-! ## The order -/

theorem atMost_iff : x.atMost y = true ↔ ∃ m n, x.rank? = some m ∧ y.rank? = some n ∧ m ≤ n := by
  unfold atMost compareBy
  cases x.rank? with
  | none => simp
  | some m =>
    cases y.rank? with
    | none => simp
    | some n => simp

theorem atMost_refl (h : x ≠ nan) : x.atMost x = true := by
  cases x with
  | nan => exact absurd rfl h
  | infinite s => exact atMost_iff.mpr ⟨_, _, rfl, rfl, Int.le_refl _⟩
  | finite s m hm => exact atMost_iff.mpr ⟨_, _, rfl, rfl, Int.le_refl _⟩

/-- What is at most another value, and at least it, has its place. -/
theorem rank?_eq_of_atMost (hxy : x.atMost y = true) (hyx : y.atMost x = true) :
    x.rank? = y.rank? := by
  obtain ⟨m, n, hm, hn, hle⟩ := atMost_iff.mp hxy
  obtain ⟨n', m', hn', hm', hge⟩ := atMost_iff.mp hyx
  obtain rfl := Option.some.inj (hm.symm.trans hm')
  obtain rfl := Option.some.inj (hn.symm.trans hn')
  rw [hm, hn, Int.le_antisymm hle hge]

/-- What has the same place compares alike. -/
theorem atMost_congr {x y x' y' : Binary64} (hx : x.rank? = x'.rank?) (hy : y.rank? = y'.rank?) :
    x.atMost y = x'.atMost y' := by
  unfold atMost compareBy
  rw [hx, hy]

theorem finite_atMost_iff {s t : Bool} {m n : Nat} {hm : Representable m} {hn : Representable n} :
    (finite s m hm).atMost (finite t n hn) = true ↔ signed s m ≤ signed t n := by
  simp [atMost, compareBy, rank?]

theorem signed_bounds (s : Bool) {m : Nat} (hm : m < grainLimit) :
    -(grainLimit : Int) < signed s m ∧ signed s m < grainLimit := by
  unfold signed
  split <;> omega

/-- Every number has its place between the two ends. -/
theorem rank?_bounds {r : Int} (h : x.rank? = some r) : -(grainLimit : Int) ≤ r ∧ r ≤ grainLimit := by
  have hpos := grainLimit_pos
  cases x with
  | nan => exact nomatch h
  | infinite s =>
    obtain rfl := Option.some.inj h
    unfold signed
    split <;> omega
  | finite s m hm =>
    obtain rfl := Option.some.inj h
    have := signed_bounds s hm.1
    omega

theorem atMost_top (h : x ≠ nan) : x.atMost (infinite false) = true := by
  cases hx : x.rank? with
  | none =>
    cases x with
    | nan => exact absurd rfl h
    | infinite s => exact nomatch hx
    | finite s m hm => exact nomatch hx
  | some r => exact atMost_iff.mpr ⟨r, _, hx, rfl, (rank?_bounds hx).2⟩

theorem bottom_atMost (h : x ≠ nan) : (infinite true).atMost x = true := by
  cases hx : x.rank? with
  | none =>
    cases x with
    | nan => exact absurd rfl h
    | infinite s => exact nomatch hx
    | finite s m hm => exact nomatch hx
  | some r => exact atMost_iff.mpr ⟨_, r, rfl, hx, (rank?_bounds hx).1⟩

/-- Only the upper end is as far up as itself. -/
theorem eq_top_of_atMost (h : (infinite false).atMost y = true) : y = infinite false := by
  obtain ⟨m, n, hm, hn, hle⟩ := atMost_iff.mp h
  obtain rfl : (grainLimit : Int) = m := Option.some.inj hm
  have hpos := grainLimit_pos
  cases y with
  | nan => exact nomatch hn
  | infinite s =>
    cases s with
    | false => rfl
    | true =>
      obtain rfl : -(grainLimit : Int) = n := Option.some.inj hn
      omega
  | finite s k hk =>
    obtain rfl : signed s k = n := Option.some.inj hn
    have := signed_bounds s hk.1
    omega

/-- Only the lower end is as far down as itself. -/
theorem eq_bottom_of_atMost (h : x.atMost (infinite true) = true) : x = infinite true := by
  obtain ⟨m, n, hm, hn, hle⟩ := atMost_iff.mp h
  obtain rfl : -(grainLimit : Int) = n := Option.some.inj hn
  have hpos := grainLimit_pos
  cases x with
  | nan => exact nomatch hm
  | infinite s =>
    cases s with
    | true => rfl
    | false =>
      obtain rfl : (grainLimit : Int) = m := Option.some.inj hm
      omega
  | finite s k hk =>
    obtain rfl : signed s k = m := Option.some.inj hm
    have := signed_bounds s hk.1
    omega

theorem ne_nan_of_atMost (h : x.atMost y = true) : x ≠ nan ∧ y ≠ nan := by
  obtain ⟨m, n, hm, hn, -⟩ := atMost_iff.mp h
  constructor
  · rintro rfl
    exact nomatch hm
  · rintro rfl
    exact nomatch hn

/-- Comparable numbers are finite both, or one of them is an end that says all. -/
theorem atMost_cases (h : x.atMost y = true) :
    x = infinite true ∨ y = infinite false ∨
      ∃ s m hm t n hn, x = finite s m hm ∧ y = finite t n hn ∧ signed s m ≤ signed t n := by
  obtain ⟨hx, hy⟩ := ne_nan_of_atMost h
  cases x with
  | nan => exact absurd rfl hx
  | infinite s =>
    cases s with
    | true => exact .inl rfl
    | false => exact .inr (.inl (eq_top_of_atMost h))
  | finite s m hm =>
    cases y with
    | nan => exact absurd rfl hy
    | infinite t =>
      cases t with
      | true => exact nomatch eq_bottom_of_atMost h
      | false => exact .inr (.inl rfl)
    | finite t n hn => exact .inr (.inr ⟨s, m, hm, t, n, hn, rfl, rfl, finite_atMost_iff.mp h⟩)

/-! ## Converting integers -/

theorem ofInt_atMost_ofInt {i j : Int} (h : i ≤ j) : (ofInt i).atMost (ofInt j) = true :=
  atMost_iff.mpr ⟨_, _, rank?_ofInt i, rank?_ofInt j,
    place_mono 1 (Int.mul_le_mul_of_nonneg_right h (Int.natCast_nonneg _))⟩

/-! ## Adding and subtracting -/

theorem infinite_add {s : Bool} (h : infinite s + a ≠ nan) : infinite s + a = infinite s := by
  cases a with
  | nan => exact absurd rfl h
  | finite t m hm => rfl
  | infinite t =>
    change (if s == t then infinite s else nan) ≠ nan at h
    change (if s == t then infinite s else nan) = infinite s
    split at h
    · rename_i hst
      rw [if_pos hst]
    · exact absurd rfl h

theorem add_infinite {s : Bool} (h : a + infinite s ≠ nan) : a + infinite s = infinite s := by
  cases a with
  | nan => exact absurd rfl h
  | finite t m hm => rfl
  | infinite t =>
    change (if t == s then infinite t else nan) ≠ nan at h
    change (if t == s then infinite t else nan) = infinite s
    split at h
    · rename_i hst
      rw [if_pos hst, beq_iff_eq.mp hst]
    · exact absurd rfl h

theorem finite_add {s t : Bool} {m n : Nat} {hm : Representable m} {hn : Representable n} :
    finite s m hm + finite t n hn = ofSigned (s && t) (signed s m + signed t n) := by
  change add _ _ = _
  rw [add]

theorem add_nan (a : Binary64) : a + nan = nan := by
  cases a with
  | nan => rfl
  | infinite s => rfl
  | finite s m hm => rfl

/-- **Adding keeps the order**, in both terms. -/
theorem add_atMost_add (hxy : x.atMost y = true) (hab : a.atMost b = true) (hlow : x + a ≠ nan)
    (hhigh : y + b ≠ nan) : (x + a).atMost (y + b) = true := by
  rcases atMost_cases hxy with rfl | rfl | ⟨s, m, hm, t, n, hn, rfl, rfl, hle⟩
  · rw [infinite_add hlow]
    exact bottom_atMost hhigh
  · rw [infinite_add hhigh]
    exact atMost_top hlow
  · rcases atMost_cases hab with rfl | rfl | ⟨u, i, hi, v, j, hj, rfl, rfl, hle'⟩
    · rw [add_infinite hlow]
      exact bottom_atMost hhigh
    · rw [add_infinite hhigh]
      exact atMost_top hlow
    · rw [finite_add, finite_add]
      exact atMost_iff.mpr ⟨_, _, rank?_ofSigned _ _, rank?_ofSigned _ _,
        place_mono 1 (Int.add_le_add hle hle')⟩

theorem neg_ne_nan (h : a ≠ nan) : a.neg ≠ nan := by
  cases a with
  | nan => exact absurd rfl h
  | infinite s => exact fun h => nomatch h
  | finite s m hm => exact fun h => nomatch h

theorem sub_atMost_sub (hxy : x.atMost y = true) (ha : a ≠ nan) (hlow : x - a ≠ nan)
    (hhigh : y - a ≠ nan) : (x - a).atMost (y - a) = true :=
  add_atMost_add hxy (atMost_refl (neg_ne_nan ha)) hlow hhigh

/-! ## Multiplying and dividing by what is not negative -/

/-- A finite number whose sign is clear. -/
def IsPlain (x : Binary64) : Prop :=
  x.isFinite = true ∧ x.isNegative = false

instance (x : Binary64) : Decidable x.IsPlain :=
  inferInstanceAs (Decidable (x.isFinite = true ∧ x.isNegative = false))

theorem isPlain_iff : IsPlain x ↔ ∃ m hm, x = finite false m hm := by
  constructor
  · rintro ⟨hfin, hneg⟩
    cases x with
    | nan => exact nomatch hfin
    | infinite s => exact nomatch hfin
    | finite s m hm =>
      obtain rfl : s = false := hneg
      exact ⟨m, hm, rfl⟩
  · rintro ⟨m, hm, rfl⟩
    exact ⟨rfl, rfl⟩

theorem IsPlain.ne_nan (h : IsPlain a) : a ≠ nan := by
  obtain ⟨m, hm, rfl⟩ := isPlain_iff.mp h
  exact fun h => nomatch h

theorem signed_mul (s : Bool) (m n : Nat) : signed s (m * n) = signed s m * n := by
  unfold signed
  split
  · rw [Int.neg_mul, Int.natCast_mul]
  · exact Int.natCast_mul m n

theorem finite_mul {s t : Bool} {m n : Nat} {hm : Representable m} {hn : Representable n} :
    finite s m hm * finite t n hn = ofQuotient (s != t) (m * n) grainsPerOne := by
  change mul _ _ = _
  rw [mul]

theorem infinite_mul {s : Bool} (ha : IsPlain a) (h : infinite s * a ≠ nan) :
    infinite s * a = infinite s := by
  obtain ⟨m, hm, rfl⟩ := isPlain_iff.mp ha
  change (if m = 0 then nan else infinite (s != false)) ≠ nan at h
  change (if m = 0 then nan else infinite (s != false)) = infinite s
  split at h
  · exact absurd rfl h
  · rename_i h0
    rw [if_neg h0, Bool.bne_false]

theorem infinite_div {s : Bool} (ha : IsPlain a) : infinite s / a = infinite s := by
  obtain ⟨m, hm, rfl⟩ := isPlain_iff.mp ha
  show infinite (s != false) = infinite s
  rw [Bool.bne_false]

/-- **Multiplying by what is not negative keeps the order.** -/
theorem mul_atMost_mul (hxy : x.atMost y = true) (ha : IsPlain a) (hlow : x * a ≠ nan)
    (hhigh : y * a ≠ nan) : (x * a).atMost (y * a) = true := by
  rcases atMost_cases hxy with rfl | rfl | ⟨s, m, hm, t, n, hn, rfl, rfl, hle⟩
  · rw [infinite_mul ha hlow]
    exact bottom_atMost hhigh
  · rw [infinite_mul ha hhigh]
    exact atMost_top hlow
  · obtain ⟨k, hk, rfl⟩ := isPlain_iff.mp ha
    rw [finite_mul, finite_mul, Bool.bne_false, Bool.bne_false]
    refine atMost_iff.mpr ⟨_, _, rank?_ofQuotient _ _ _, rank?_ofQuotient _ _ _, ?_⟩
    rw [signed_mul, signed_mul]
    exact place_mono _ (Int.mul_le_mul_of_nonneg_right hle (Int.natCast_nonneg k))

/-- **Dividing by what is positive keeps the order.** -/
theorem div_atMost_div (hxy : x.atMost y = true) (ha : IsPlain a) (hzero : a.isZero = false) :
    (x / a).atMost (y / a) = true := by
  obtain ⟨hx, hy⟩ := ne_nan_of_atMost hxy
  obtain ⟨k, hk, rfl⟩ := isPlain_iff.mp ha
  have hk0 : k ≠ 0 := by simpa [isZero] using hzero
  have hquot : ∀ s m (hm : Representable m), finite s m hm / finite false k hk
      = ofQuotient s (m * grainsPerOne) k := by
    intro s m hm
    show (if k = 0 then _ else ofQuotient (s != false) (m * grainsPerOne) k) = _
    rw [if_neg hk0, Bool.bne_false]
  have hnum : ∀ s m (hm : Representable m), finite s m hm / finite false k hk ≠ nan := by
    intro s m hm h
    have hr := rank?_ofQuotient s (m * grainsPerOne) k
    rw [← hquot s m hm, h] at hr
    exact nomatch hr
  rcases atMost_cases hxy with rfl | rfl | ⟨s, m, hm, t, n, hn, rfl, rfl, hle⟩
  · rw [infinite_div ha]
    cases y with
    | nan => exact absurd rfl hy
    | infinite t => rw [infinite_div ha]; exact bottom_atMost fun h => nomatch h
    | finite t n hn => exact bottom_atMost (hnum t n hn)
  · rw [infinite_div ha]
    cases x with
    | nan => exact absurd rfl hx
    | infinite t => rw [infinite_div ha]; exact atMost_top fun h => nomatch h
    | finite t n hn => exact atMost_top (hnum t n hn)
  · rw [hquot, hquot]
    refine atMost_iff.mpr ⟨_, _, rank?_ofQuotient _ _ _, rank?_ofQuotient _ _ _, ?_⟩
    rw [signed_mul, signed_mul]
    exact place_mono _ (Int.mul_le_mul_of_nonneg_right hle (Int.natCast_nonneg _))

/-! ## Sums -/

theorem foldl_add_nan (xs : List Binary64) : xs.foldl add nan = nan := by
  induction xs with
  | nil => rfl
  | cons x xs ih => exact ih

/-- **Sums keep the order** of their terms, if both are numbers.  Terms that are not numbers need
    not be ruled out one by one: none of them leaves a sum that is a number. -/
theorem foldl_add_atMost (xs ys : List Binary64) (hlen : xs.length = ys.length)
    (h : ∀ (j : Nat) (x y : Binary64), xs[j]? = some x → ys[j]? = some y → x ≠ nan → y ≠ nan →
      x.atMost y = true)
    (hxy : x.atMost y = true) (hlow : xs.foldl add x ≠ nan) (hhigh : ys.foldl add y ≠ nan) :
    (xs.foldl add x).atMost (ys.foldl add y) = true := by
  induction xs generalizing ys x y with
  | nil =>
    obtain rfl : ys = [] := List.length_eq_zero_iff.mp hlen.symm
    exact hxy
  | cons a xs ih =>
    cases ys with
    | nil => exact nomatch hlen
    | cons b ys =>
      rw [List.foldl_cons] at hlow hhigh
      have hxa : x + a ≠ nan := by
        intro hnan
        rw [show add x a = nan from hnan, foldl_add_nan] at hlow
        exact hlow rfl
      have hyb : y + b ≠ nan := by
        intro hnan
        rw [show add y b = nan from hnan, foldl_add_nan] at hhigh
        exact hhigh rfl
      have ha : a ≠ nan := by
        rintro rfl
        exact hxa (add_nan x)
      have hb : b ≠ nan := by
        rintro rfl
        exact hyb (add_nan y)
      have hab : a.atMost b = true := h 0 a b rfl rfl ha hb
      exact ih ys (Nat.succ.inj hlen) (fun j => h (j + 1)) (add_atMost_add hxy hab hxa hyb)
        hlow hhigh

theorem sum_atMost_sum {xs ys : List Binary64} (hlen : xs.length = ys.length)
    (h : ∀ (j : Nat) (x y : Binary64), xs[j]? = some x → ys[j]? = some y → x ≠ nan → y ≠ nan →
      x.atMost y = true)
    (hlow : sum xs ≠ nan) (hhigh : sum ys ≠ nan) : (sum xs).atMost (sum ys) = true :=
  foldl_add_atMost xs ys hlen h (atMost_refl fun h => nomatch h) hlow hhigh

end DiceNotation.Binary64
