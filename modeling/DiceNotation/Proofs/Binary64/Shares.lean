/-
  Shares: numbers from zero to one.

  What lies between two finite numbers is finite (`Between.isFinite`), so an operation on it has a
  number for its result, and the order laws of the operations apply without further conditions.
  `Between` is carried through a product and through a difference that way (`Between.mul`,
  `Between.sub_from`).

  1. A quotient of two numbers in order is a share, as long as the upper one is not zero and the
     lower one is finite and not below zero (`isShare_div`).  Infinity divided by infinity is what
     the second condition keeps out.
  2. The mean of shares is a share (`isShare_mean`).  Their sum may be rounded at every step, but
     never past their number: up to 2^53 adding one to a number of shares is exact, and from there
     on it changes nothing (`ofInt_add_one_atMost`).

  A difference is never rounded away: it is zero just if the two numbers have one place
  (`place_eq_zero_iff`, `isZero_sub`).
-/
import DiceNotation.Proofs.Binary64.Whole

namespace DiceNotation.Binary64

variable {x y a low high : Binary64}

/-! ## The order -/

theorem atMost_trans {z : Binary64} (hxy : x.atMost y = true) (hyz : y.atMost z = true) :
    x.atMost z = true := by
  obtain ⟨m, n, hm, hn, hle⟩ := atMost_iff.mp hxy
  obtain ⟨n', k, hn', hk, hle'⟩ := atMost_iff.mp hyz
  obtain rfl : n = n' := Option.some.inj (hn.symm.trans hn')
  exact atMost_iff.mpr ⟨m, k, hm, hk, Int.le_trans hle hle'⟩

/-- Nothing is below what is no more than it, and what is not a number is below nothing. -/
theorem below_eq_false (h : x ≠ nan → y ≠ nan → y.atMost x = true) : x.below y = false := by
  by_cases hx : x = nan
  · subst hx
    rfl
  · by_cases hy : y = nan
    · subst hy
      cases x with
      | nan => rfl
      | infinite s => rfl
      | finite s m hm => rfl
    · obtain ⟨m, n, hm, hn, hle⟩ := atMost_iff.mp (h hx hy)
      unfold below compareBy
      rw [hm, hn]
      exact decide_eq_false (Int.not_lt.mpr hle)

theorem rank?_neg (x : Binary64) : x.neg.rank? = x.rank?.map fun r => -r := by
  have hsigned : ∀ (s : Bool) (n : Nat), signed (!s) n = -signed s n := by
    intro s n
    cases s with
    | true => exact (Int.neg_neg _).symm
    | false => rfl
  cases x with
  | nan => rfl
  | infinite s => exact congrArg some (hsigned s grainLimit)
  | finite s m hm => exact congrArg some (hsigned s m)

/-- The other sign turns the order around. -/
theorem neg_atMost_neg (h : x.atMost y = true) : y.neg.atMost x.neg = true := by
  obtain ⟨m, n, hm, hn, hle⟩ := atMost_iff.mp h
  refine atMost_iff.mpr ⟨-n, -m, ?_, ?_, Int.neg_le_neg hle⟩
  · rw [rank?_neg, hn, Option.map_some]
  · rw [rank?_neg, hm, Option.map_some]

/-! ## Operations on finite numbers -/

theorem isFinite_iff : x.isFinite = true ↔ ∃ s m hm, x = finite s m hm := by
  constructor
  · intro h
    cases x with
    | nan => cases h
    | infinite s => cases h
    | finite s m hm => exact ⟨s, m, hm, rfl⟩
  · rintro ⟨s, m, hm, rfl⟩
    rfl

theorem ne_nan_of_isFinite (h : x.isFinite = true) : x ≠ nan := by
  rintro rfl
  cases h

theorem ne_nan_of_rank? {r : Int} (h : x.rank? = some r) : x ≠ nan := by
  rintro rfl
  cases h

theorem add_ne_nan (hx : x.isFinite = true) (hy : y.isFinite = true) : x + y ≠ nan := by
  obtain ⟨s, m, hm, rfl⟩ := isFinite_iff.mp hx
  obtain ⟨t, n, hn, rfl⟩ := isFinite_iff.mp hy
  rw [finite_add]
  exact ne_nan_of_rank? (rank?_ofSigned _ _)

theorem isFinite_neg (hx : x.isFinite = true) : x.neg.isFinite = true := by
  obtain ⟨s, m, hm, rfl⟩ := isFinite_iff.mp hx
  rfl

theorem sub_ne_nan (hx : x.isFinite = true) (hy : y.isFinite = true) : x - y ≠ nan :=
  add_ne_nan hx (isFinite_neg hy)

theorem mul_ne_nan (hx : x.isFinite = true) (hy : y.isFinite = true) : x * y ≠ nan := by
  obtain ⟨s, m, hm, rfl⟩ := isFinite_iff.mp hx
  obtain ⟨t, n, hn, rfl⟩ := isFinite_iff.mp hy
  rw [finite_mul]
  exact ne_nan_of_rank? (rank?_ofQuotient _ _ _)

theorem finite_mul_comm (hx : x.isFinite = true) (hy : y.isFinite = true) : x * y = y * x := by
  obtain ⟨s, m, hm, rfl⟩ := isFinite_iff.mp hx
  obtain ⟨t, n, hn, rfl⟩ := isFinite_iff.mp hy
  have hsign : (s != t) = (t != s) := Bool.xor_comm s t
  rw [finite_mul, finite_mul, Nat.mul_comm m n, hsign]

/-! ## Between two numbers -/

/-- No less than one number and no more than another. -/
def Between (low high x : Binary64) : Prop :=
  low.atMost x = true ∧ x.atMost high = true

instance (low high x : Binary64) : Decidable (Between low high x) :=
  inferInstanceAs (Decidable (low.atMost x = true ∧ x.atMost high = true))

namespace Between

theorem isFinite (h : Between low high x) (hlow : low.isFinite = true)
    (hhigh : high.isFinite = true) : x.isFinite = true := by
  cases x with
  | nan => exact absurd rfl (ne_nan_of_atMost h.1).2
  | finite s m hm => rfl
  | infinite s =>
    cases s with
    | true =>
      rw [eq_bottom_of_atMost h.1] at hlow
      exact hlow
    | false =>
      rw [eq_top_of_atMost h.2] at hhigh
      exact hhigh

theorem mono {low' high' : Binary64} (h : Between low high x) (hlow : low'.atMost low = true)
    (hhigh : high.atMost high' = true) : Between low' high' x :=
  ⟨atMost_trans hlow h.1, atMost_trans h.2 hhigh⟩

/-- Multiplied by what is not negative. -/
theorem mul (h : Between low high x) (hlow : low.isFinite = true) (hhigh : high.isFinite = true)
    (ha : IsPlain a) : Between (low * a) (high * a) (x * a) := by
  have hx := h.isFinite hlow hhigh
  have hfin : a.isFinite = true := ha.1
  exact ⟨mul_atMost_mul h.1 ha (mul_ne_nan hlow hfin) (mul_ne_nan hx hfin),
    mul_atMost_mul h.2 ha (mul_ne_nan hx hfin) (mul_ne_nan hhigh hfin)⟩

/-- The factor may as well stand in front. -/
theorem mul_left (h : Between low high x) (hlow : low.isFinite = true)
    (hhigh : high.isFinite = true) (ha : IsPlain a) : Between (a * low) (a * high) (a * x) := by
  have hfin : a.isFinite = true := ha.1
  rw [finite_mul_comm hfin hlow, finite_mul_comm hfin hhigh,
    finite_mul_comm hfin (h.isFinite hlow hhigh)]
  exact h.mul hlow hhigh ha

theorem div (h : Between low high x) (ha : IsPlain a) (hzero : a.isZero = false) :
    Between (low / a) (high / a) (x / a) :=
  ⟨div_atMost_div h.1 ha hzero, div_atMost_div h.2 ha hzero⟩

/-- A number less one that is between two. -/
theorem sub (h : Between low high x) (hlow : low.isFinite = true) (hhigh : high.isFinite = true)
    (ha : a.isFinite = true) : Between (low - a) (high - a) (x - a) := by
  have hx := h.isFinite hlow hhigh
  have hnan := ne_nan_of_isFinite ha
  exact ⟨sub_atMost_sub h.1 hnan (sub_ne_nan hlow ha) (sub_ne_nan hx ha),
    sub_atMost_sub h.2 hnan (sub_ne_nan hx ha) (sub_ne_nan hhigh ha)⟩

/-- Taken away from a number: the ends change places. -/
theorem sub_from (h : Between low high x) (hlow : low.isFinite = true)
    (hhigh : high.isFinite = true) (ha : a.isFinite = true) :
    Between (a - high) (a - low) (a - x) := by
  have hx := h.isFinite hlow hhigh
  have hself := atMost_refl (ne_nan_of_isFinite ha)
  exact ⟨add_atMost_add hself (neg_atMost_neg h.2) (sub_ne_nan ha hhigh) (sub_ne_nan ha hx),
    add_atMost_add hself (neg_atMost_neg h.1) (sub_ne_nan ha hx) (sub_ne_nan ha hlow)⟩

end Between

/-! ## Shares -/

/-- A number from zero to one. -/
def IsShare (x : Binary64) : Prop :=
  Between 0 1 x

instance (x : Binary64) : Decidable (IsShare x) :=
  inferInstanceAs (Decidable (Between 0 1 x))

theorem isShare_ends : (0 : Binary64).isFinite = true ∧ (1 : Binary64).isFinite = true :=
  ⟨isFinite_ofInt (k := 0) (by decide), isFinite_ofInt (k := 1) (by decide)⟩

theorem IsShare.isFinite (h : IsShare x) : x.isFinite = true :=
  Between.isFinite h isShare_ends.1 isShare_ends.2

theorem IsShare.ne_nan (h : IsShare x) : x ≠ nan :=
  (ne_nan_of_atMost h.1).2

theorem rank?_zero : (0 : Binary64).rank? = some 0 := by
  have hrank := rank?_whole (k := 0) (by decide)
  rwa [Nat.zero_mul] at hrank

theorem rank?_one : (1 : Binary64).rank? = some (grainsPerOne : Int) := by
  have hrank := rank?_whole (k := 1) (by decide)
  rwa [Nat.one_mul] at hrank

/-- Both zeros are in one place. -/
theorem rank?_zero_signed (negative : Bool) : (zero negative).rank? = some 0 :=
  congrArg some (signed_zero negative)

theorem isShare_zero (negative : Bool) : IsShare (zero negative) :=
  ⟨atMost_iff.mpr ⟨_, _, rank?_zero, rank?_zero_signed negative, Int.le_refl 0⟩,
    atMost_iff.mpr ⟨_, _, rank?_zero_signed negative, rank?_one, Int.natCast_nonneg _⟩⟩

theorem isZero_eq_false {r : Int} (h : x.rank? = some r) (hr : r ≠ 0) : x.isZero = false := by
  cases x with
  | nan => rfl
  | infinite s => rfl
  | finite s m hm =>
    obtain rfl : signed s m = r := Option.some.inj h
    apply beq_eq_false_iff_ne.mpr
    rintro rfl
    exact hr (signed_zero s)

theorem isZero_whole {k : Nat} (hk : k ≤ 2 ^ 53) (hpos : 0 < k) : (ofInt k).isZero = false := by
  refine isZero_eq_false (rank?_whole hk) (Int.natCast_ne_zero.mpr ?_)
  exact Nat.mul_ne_zero (Nat.ne_of_gt hpos) (Nat.ne_of_gt Decimal.grainsPerOne_pos)

theorem signed_nonneg {s : Bool} {m : Nat} {hm : Representable m}
    (h : (0 : Binary64).atMost (finite s m hm) = true) : (0 : Int) ≤ signed s m := by
  obtain ⟨r, r', hr, hr', hle⟩ := atMost_iff.mp h
  obtain rfl : 0 = r := Option.some.inj (rank?_zero.symm.trans hr)
  obtain rfl : signed s m = r' := Option.some.inj hr'
  exact hle

/-- What is above zero has a clear sign. -/
theorem isPlain_of_zero_atMost (h0 : (0 : Binary64).atMost x = true) (hfin : x.isFinite = true)
    (hx : x.isZero = false) : IsPlain x := by
  obtain ⟨s, m, hm, rfl⟩ := isFinite_iff.mp hfin
  cases s with
  | false => exact ⟨rfl, rfl⟩
  | true =>
    have hle : (0 : Int) ≤ -(m : Int) := signed_nonneg h0
    have hzero : m ≠ 0 := by simpa [isZero] using hx
    omega

theorem place_zero (den : Nat) : place 0 den = 0 := by
  have hplace := place_signed false 0 den
  rw [nearestGrains_zero, Nat.zero_min] at hplace
  exact hplace

/-- As much as there is makes one. -/
theorem place_self {n : Nat} (hn : 0 < n) : place (n * grainsPerOne : Nat) n = grainsPerOne := by
  have hgrid : Representable (1 * grainsPerOne) := representable_whole (by decide)
  rw [Nat.one_mul] at hgrid
  have hplace := place_signed false (n * grainsPerOne) n
  rwa [Nat.mul_comm, nearestGrains_exact hgrid.2 hn, Nat.min_eq_left (Nat.le_of_lt hgrid.1),
    Nat.mul_comm] at hplace

/-- **A quotient of two numbers in order is a share**, if the upper one is not zero and the lower
    one is finite and not below zero. -/
theorem isShare_div (h0 : (0 : Binary64).atMost x = true) (hfin : x.isFinite = true)
    (hxy : x.atMost y = true) (hy : y.isZero = false) : IsShare (x / y) := by
  obtain ⟨s, m, hm, rfl⟩ := isFinite_iff.mp hfin
  cases y with
  | nan => exact absurd rfl (ne_nan_of_atMost hxy).2
  | infinite t =>
    -- infinitely many times as much
    exact isShare_zero (s != t)
  | finite t n hn =>
    have hplain : IsPlain (finite t n hn) := isPlain_of_zero_atMost (atMost_trans h0 hxy) rfl hy
    obtain rfl : t = false := hplain.2
    have hn0 : n ≠ 0 := by simpa [isZero] using hy
    have hrank : (finite s m hm / finite false n hn).rank?
        = some (place (signed s (m * grainsPerOne)) n) := by
      show (if n = 0 then _ else ofQuotient (s != false) (m * grainsPerOne) n).rank? = _
      rw [if_neg hn0, Bool.bne_false, rank?_ofQuotient]
    have hlow := signed_nonneg h0
    have hhigh : signed s m ≤ n := finite_atMost_iff.mp hxy
    have hone : (0 : Int) ≤ grainsPerOne := Int.natCast_nonneg _
    rw [signed_mul] at hrank
    constructor
    · refine atMost_iff.mpr ⟨_, _, rank?_zero, hrank, ?_⟩
      calc (0 : Int) = place 0 n := (place_zero n).symm
        _ ≤ place (signed s m * grainsPerOne) n := place_mono n (Int.mul_nonneg hlow hone)
    · refine atMost_iff.mpr ⟨_, _, hrank, rank?_one, ?_⟩
      have hself := place_self (Nat.pos_of_ne_zero hn0)
      rw [Int.natCast_mul] at hself
      calc place (signed s m * grainsPerOne) n ≤ place (n * grainsPerOne) n :=
            place_mono n (Int.mul_le_mul_of_nonneg_right hhigh hone)
        _ = grainsPerOne := hself

theorem complement_ends :
    (0 : Binary64).atMost (1 - 1) = true ∧ (1 - 0 : Binary64).atMost 1 = true := by
  decide +kernel

/-- What is left of one after a share is a share. -/
theorem IsShare.complement (h : IsShare x) : IsShare (1 - x) := by
  have hsub := Between.sub_from h isShare_ends.1 isShare_ends.2 isShare_ends.2
  exact hsub.mono complement_ends.1 complement_ends.2

/-! ## Differences -/

theorem signed_not (negative : Bool) (n : Nat) : signed (!negative) n = -signed negative n := by
  cases negative with
  | true => exact (Int.neg_neg _).symm
  | false => rfl

theorem rank?_finite_sub {s t : Bool} {m n : Nat} {hm : Representable m} {hn : Representable n} :
    (finite s m hm - finite t n hn).rank? = some (place (signed s m - signed t n) 1) := by
  show (finite s m hm + finite (!t) n hn).rank? = _
  rw [finite_add, rank?_ofSigned, signed_not, ← Int.sub_eq_add_neg]

/-- A number less itself is nothing. -/
theorem rank?_sub_self (hx : x.isFinite = true) : (x - x).rank? = some 0 := by
  obtain ⟨s, m, hm, rfl⟩ := isFinite_iff.mp hx
  rw [rank?_finite_sub, Int.sub_self, place_zero]

/-- No count of grains is rounded away. -/
theorem place_eq_zero_iff {i : Int} : place i 1 = 0 ↔ i = 0 := by
  constructor
  · intro hzero
    have hgrid : spacing 1 ∣ 1 := by decide
    have hpos := grainLimit_pos
    have habs := natAbs_signed (decide (i < 0)) (min (nearestGrains i.natAbs 1) grainLimit)
    change (place i 1).natAbs = _ at habs
    rw [hzero, Int.natAbs_zero] at habs
    rcases Nat.eq_zero_or_pos i.natAbs with hi | hi
    · exact Int.natAbs_eq_zero.mp hi
    · have hkept : 1 ≤ nearestGrains i.natAbs 1 := le_nearestGrains hgrid Nat.one_pos (by omega)
      omega
  · rintro rfl
    exact place_zero 1

/-- Two finite numbers are the same or apart, however near they are. -/
theorem isZero_sub (hx : x.isFinite = true) (hy : y.isFinite = true)
    (h : x.sameNumber y = false) : (x - y).isZero = false := by
  obtain ⟨s, m, hm, rfl⟩ := isFinite_iff.mp hx
  obtain ⟨t, n, hn, rfl⟩ := isFinite_iff.mp hy
  have hapart : signed s m ≠ signed t n := beq_eq_false_iff_ne.mp h
  refine isZero_eq_false rank?_finite_sub fun hzero => ?_
  exact hapart (Int.sub_eq_zero.mp (place_eq_zero_iff.mp hzero))

/-! ## The mean of shares -/

/-- Counting on from a number of shares: exact up to 2^53, and without effect from there on. -/
theorem ofInt_add_one_atMost {k : Nat} (hk : k ≤ 2 ^ 53) :
    (ofInt k + 1).atMost (ofInt (min (k + 1) (2 ^ 53) : Nat)) = true := by
  rcases Nat.eq_or_lt_of_le hk with rfl | hlt
  · decide +kernel
  · have hsum : (ofInt k + ofInt (1 : Nat)).rank?
        = some (place ((k + 1 : Nat) * grainsPerOne) 1) := by
      rw [ofInt_exact hk, ofInt_exact (by decide), finite_add, rank?_ofSigned]
      show some (place ((k * grainsPerOne : Nat) + (1 * grainsPerOne : Nat)) 1) = _
      rw [← Int.natCast_add, ← Nat.add_mul, Int.natCast_mul]
    rw [Nat.min_eq_left hlt]
    exact atMost_iff.mpr ⟨_, _, hsum, rank?_ofInt _, Int.le_refl _⟩

theorem zero_atMost_add : (0 : Binary64).atMost (0 + 0) = true := by
  decide +kernel

/-- Adding shares to what is no more than a number of them. -/
theorem foldl_add_between (xs : List Binary64) (hxs : ∀ x ∈ xs, IsShare x) {k : Nat}
    (hk : k ≤ 2 ^ 53) {start : Binary64} (hstart : Between 0 (ofInt k) start) :
    Between 0 (ofInt (min (k + xs.length) (2 ^ 53) : Nat)) (xs.foldl add start) := by
  induction xs generalizing k start with
  | nil =>
    rw [List.length_nil, Nat.add_zero, Nat.min_eq_left hk]
    exact hstart
  | cons x xs ih =>
    have hx := hxs x List.mem_cons_self
    have hfin := hstart.isFinite isShare_ends.1 (isFinite_ofInt hk)
    have hnext : Between 0 (ofInt (min (k + 1) (2 ^ 53) : Nat)) (start + x) := by
      have hnan := add_ne_nan hfin hx.isFinite
      constructor
      · have hbottom := add_ne_nan isShare_ends.1 isShare_ends.1
        exact atMost_trans zero_atMost_add (add_atMost_add hstart.1 hx.1 hbottom hnan)
      · have htop := add_ne_nan (isFinite_ofInt hk) isShare_ends.2
        exact atMost_trans (add_atMost_add hstart.2 hx.2 hnan htop) (ofInt_add_one_atMost hk)
    have hrest := ih (fun y hy => hxs y (List.mem_cons_of_mem _ hy)) (Nat.min_le_right _ _) hnext
    have hcount : min (min (k + 1) (2 ^ 53) + xs.length) (2 ^ 53)
        = min (k + (x :: xs).length) (2 ^ 53) := by
      rw [List.length_cons]
      omega
    rw [hcount] at hrest
    exact hrest

/-- **The mean of shares is a share**, however many there are. -/
theorem isShare_mean {xs : List Binary64} (hne : xs ≠ []) (hxs : ∀ x ∈ xs, IsShare x) :
    IsShare (sum xs / ofInt xs.length) := by
  have hstart : Between 0 (ofInt (0 : Nat)) (zero true) :=
    ⟨(isShare_zero true).1,
      atMost_iff.mpr ⟨_, _, rank?_zero_signed true, rank?_zero, Int.le_refl 0⟩⟩
  have hsum := foldl_add_between xs hxs (Nat.zero_le _) hstart
  rw [Nat.zero_add] at hsum
  have hpos : 0 < xs.length := List.length_pos_iff.mpr hne
  apply isShare_div hsum.1
  · exact hsum.isFinite isShare_ends.1 (isFinite_ofInt (Nat.min_le_right _ _))
  · refine atMost_trans hsum.2 (ofInt_atMost_ofInt ?_)
    omega
  · have hone : (1 : Binary64).atMost (ofInt xs.length) = true :=
      ofInt_atMost_ofInt (Int.ofNat_le.mpr hpos)
    obtain ⟨r, r', hr, hr', hle⟩ := atMost_iff.mp hone
    obtain rfl : (grainsPerOne : Int) = r := Option.some.inj (rank?_one.symm.trans hr)
    apply isZero_eq_false hr'
    have := Decimal.grainsPerOne_pos
    omega

/-- One that is no number spoils the sum. -/
theorem sum_eq_nan {xs : List Binary64} (h : nan ∈ xs) : sum xs = nan := by
  obtain ⟨before, after, rfl⟩ := List.append_of_mem h
  show (before ++ nan :: after).foldl add (zero true) = nan
  rw [List.foldl_append, List.foldl_cons]
  show after.foldl add (before.foldl add (zero true) + nan) = nan
  rw [add_nan, foldl_add_nan]

end DiceNotation.Binary64
