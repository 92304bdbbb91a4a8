/-
  The scale of luck.

  The colour of a share lies on the scale from red to green (`ofPosition_onScale`): blue is at its
  least, and of red and green one is full and the other moves between the two.

  1. A share makes a hue on the first third of the circle, so six times the hue is between 0 and 2
     (`between_hue`), and its whole part is 0, 1 or 2 (`floor_cases`).
  2. In sector 0 red is full and green rises, in sector 1 red falls and green is full.  Sector 2 has
     only its first point left, where green is full and red and blue are at their least.
  3. The channel that moves does so with a share, along the sector or back from its end.  Each
     operation on the way keeps the order or turns it around, so the two ends say what is between
     (`moving_bounds`).

  What is not a number has a colour too, red without green, which is not on the scale.
-/
import DiceNotation.Colour
import DiceNotation.Proofs.Binary64.Shares

namespace DiceNotation

open Binary64

/-! ## Cutting to whole numbers -/

namespace Binary64

variable {x y : Binary64}

/-- Cutting to a byte keeps the order. -/
theorem toByte_mono (h : x.atMost y = true) : x.toByte ≤ y.toByte := by
  rcases atMost_cases h with rfl | rfl | ⟨s, m, hm, t, n, hn, rfl, rfl, hle⟩
  · exact UInt8.zero_le
  · exact UInt8.le_iff_toNat_le.mpr (Nat.le_of_lt_succ (UInt8.toNat_lt _))
  · cases s with
    | true => exact UInt8.zero_le
    | false =>
      have hbound : ∀ k, (UInt8.ofNat (min 255 k)).toNat = min 255 k := by
        intro k
        rw [UInt8.toNat_ofNat']
        omega
      cases t with
      | true =>
        -- both are nothing
        have hzero : m = 0 := by
          change (m : Int) ≤ -(n : Int) at hle
          omega
        subst hzero
        show UInt8.ofNat (min 255 (0 / grainsPerOne)) ≤ 0
        rw [Nat.zero_div]
        exact UInt8.zero_le
      | false =>
        change (m : Int) ≤ n at hle
        have hdiv : m / grainsPerOne ≤ n / grainsPerOne := Nat.div_le_div_right (by omega)
        show UInt8.ofNat (min 255 (m / grainsPerOne)) ≤ UInt8.ofNat (min 255 (n / grainsPerOne))
        rw [UInt8.le_iff_toNat_le, hbound, hbound]
        omega

/-- The whole part of a number that is not below zero. -/
theorem floor_eq {s : Bool} {m : Nat} {hm : Representable m} (h : (0 : Int) ≤ signed s m) :
    (finite s m hm).floor = if m / grainsPerOne = 0 then zero s else ofInt (m / grainsPerOne : Nat) := by
  have hsame := signed_of_nonneg h
  show ofSigned s (Int.fdiv (signed s m) grainsPerOne * grainsPerOne) = _
  rw [hsame, Int.fdiv_eq_ediv_of_nonneg _ (Int.natCast_nonneg _), ← Int.natCast_ediv]
  generalize m / grainsPerOne = q
  split
  · rename_i hq
    subst hq
    rw [Int.natCast_zero, Int.zero_mul]
    exact ofQuotient_zero s 1
  · rename_i hq
    have hne : (q : Int) * grainsPerOne ≠ 0 :=
      Int.mul_ne_zero (by omega) (by have := Decimal.grainsPerOne_pos; omega)
    unfold ofInt ofSigned
    rw [if_neg hne, if_neg hne]

end Binary64

namespace Colour

/-! ## The hue of a share -/

theorem clamp_of_share {p : Binary64} (h : IsShare p) : clamp p = p := by
  unfold clamp
  rw [below_eq_false fun _ _ => h.1, below_eq_false fun _ _ => h.2]
  rfl

/-- The two ends of the way from a share to six times its hue. -/
theorem hue_ends :
    (0 * 120 / 360 : Binary64).isFinite = true ∧ (1 * 120 / 360 : Binary64).isFinite = true
      ∧ (0 : Binary64).atMost (0 * 120 / 360 * 6) = true
      ∧ (1 * 120 / 360 * 6 : Binary64).atMost 2 = true := by
  decide +kernel

theorem between_hue {p : Binary64} (h : IsShare p) : Between 0 2 (clamp p * 120 / 360 * 6) := by
  obtain ⟨hfirst, hlast, hlow, hhigh⟩ := hue_ends
  rw [clamp_of_share h]
  have hdegrees : IsPlain 120 := isPlain_ofInt (k := 120) (by decide)
  have hcircle : IsPlain 360 := isPlain_ofInt (k := 360) (by decide)
  have hzero : (360 : Binary64).isZero = false := isZero_whole (k := 360) (by decide) (by decide)
  have hsectors : IsPlain 6 := isPlain_ofInt (k := 6) (by decide)
  have hmul := Between.mul h isShare_ends.1 isShare_ends.2 hdegrees
  have hsix := (hmul.div hcircle hzero).mul hfirst hlast hsectors
  exact hsix.mono hlow hhigh

/-- A number between 0 and 2, in grains. -/
theorem grains_bounds {s : Bool} {m : Nat} {hm : Representable m}
    (h : Between 0 2 (finite s m hm)) : (0 : Int) ≤ signed s m ∧ m ≤ 2 * grainsPerOne := by
  have hlow := signed_nonneg h.1
  have htwo : (2 : Binary64).rank? = some (2 * grainsPerOne : Nat) :=
    rank?_whole (k := 2) (by decide)
  refine ⟨hlow, ?_⟩
  obtain ⟨r', r, hr', hr, hle⟩ := atMost_iff.mp h.2
  obtain rfl : ((2 * grainsPerOne : Nat) : Int) = r := Option.some.inj (htwo.symm.trans hr)
  obtain rfl : signed s m = r' := Option.some.inj hr'
  rw [signed_of_nonneg hlow] at hle
  omega

/-- The sectors that are met between 0 and 2. -/
theorem floor_cases {x : Binary64} (h : Between 0 2 x) :
    (∃ negative, x.floor = zero negative ∧ Between 0 1 x)
      ∨ (x.floor = 1 ∧ Between 1 2 x)
      ∨ x = 2 := by
  have hfin : x.isFinite = true := h.isFinite isShare_ends.1 (isFinite_ofInt (k := 2) (by decide))
  obtain ⟨s, m, hm, rfl⟩ := isFinite_iff.mp hfin
  obtain ⟨hlow, hhigh⟩ := grains_bounds h
  have hsame := signed_of_nonneg hlow
  have hone := Decimal.grainsPerOne_pos
  rcases Nat.lt_or_ge m grainsPerOne with hfirst | hfirst
  · left
    refine ⟨s, ?_, h.1, atMost_iff.mpr ⟨_, _, rfl, rank?_one, ?_⟩⟩
    · rw [floor_eq hlow, if_pos (Nat.div_eq_of_lt hfirst)]
    · rw [hsame]
      omega
  · right
    rcases Nat.lt_or_eq_of_le hhigh with hsecond | hend
    · left
      have hquot : m / grainsPerOne = 1 := by
        apply Nat.div_eq_of_lt_le
        · omega
        · omega
      refine ⟨?_, atMost_iff.mpr ⟨_, _, rank?_one, rfl, ?_⟩, h.2⟩
      · rw [floor_eq hlow, hquot]
        rfl
      · rw [hsame]
        omega
    · right
      cases s with
      | false =>
        show finite false m hm = ofInt (2 : Nat)
        rw [ofInt_exact (by decide)]
        simp only [hend]
      | true =>
        change -(m : Int) = m at hsame
        omega

/-! ## The channels -/

/-- The byte of a channel that moves, from full at 0 to its least at 1. -/
def moving (a : Binary64) : UInt8 :=
  (fourFifths * (1 - fourFifths * a) * 255).toByte

/-- The two ends of the way from a share to a channel that moves are finite at each step, and
    arrive at the two ends of a channel. -/
theorem level_ends : (IsPlain fourFifths ∧ ¬ fourFifths.isZero = true)
    ∧ ((fourFifths * 0).isFinite = true ∧ (1 - fourFifths * 0).isFinite = true
      ∧ (fourFifths * (1 - fourFifths * 0)).isFinite = true ∧ moving 0 = 204)
    ∧ (fourFifths * 1).isFinite = true ∧ (1 - fourFifths * 1).isFinite = true
      ∧ (fourFifths * (1 - fourFifths * 1)).isFinite = true ∧ moving 1 = 40 := by
  decide +kernel

/-- **What moves stays between the least and the full.** -/
theorem moving_bounds {a : Binary64} (h : IsShare a) : 40 ≤ moving a ∧ moving a ≤ 204 := by
  have hbytes : IsPlain 255 := isPlain_ofInt (k := 255) (by decide)
  obtain ⟨⟨hplain, -⟩, ⟨hmul0, hsub0, hlevel0, hfull⟩, hmul1, hsub1, hlevel1, hleast⟩ := level_ends
  have hmul := Between.mul_left h isShare_ends.1 isShare_ends.2 hplain
  have hsub := hmul.sub_from hmul0 hmul1 isShare_ends.2
  have hlevel := hsub.mul_left hsub1 hsub0 hplain
  have hbyte := hlevel.mul hlevel1 hlevel0 hbytes
  have hlow : moving 1 ≤ moving a := toByte_mono hbyte.1
  have hhigh : moving a ≤ moving 0 := toByte_mono hbyte.2
  rw [hleast] at hlow
  rw [hfull] at hhigh
  exact ⟨hlow, hhigh⟩

/-- The channels that do not move, and the one that has come to its end. -/
theorem channel_bytes : (fourFifths * 255).toByte = 204
    ∧ (fourFifths * (1 - fourFifths) * 255).toByte = 40
    ∧ (fourFifths * (1 - fourFifths * (1 - ((2 : Binary64) - 2))) * 255).toByte = 40 := by
  decide +kernel

/-- The sectors of the whole numbers that are met. -/
theorem sectors : (∀ negative, (zero negative).toInt64.toInt % 6 = 0)
    ∧ (1 : Binary64).toInt64.toInt % 6 = 1
    ∧ (2 : Binary64).floor = 2 ∧ (2 : Binary64).toInt64.toInt % 6 = 2 := by
  decide +kernel

variable {hue : Binary64}

/-- In the first sector red is full and green rises. -/
theorem ofHsv_first {negative : Bool} (h : (hue * 6).floor = zero negative) :
    ofHsv hue fourFifths fourFifths
      = ⟨204, moving (1 - (hue * 6 - zero negative)), 40⟩ := by
  unfold ofHsv channels
  rw [if_neg level_ends.1.2]
  simp only [h, sectors.1 negative, channel_bytes.1, channel_bytes.2.1]
  rfl

/-- In the second red falls and green is full. -/
theorem ofHsv_second (h : (hue * 6).floor = 1) :
    ofHsv hue fourFifths fourFifths = ⟨moving (hue * 6 - 1), 204, 40⟩ := by
  unfold ofHsv channels
  rw [if_neg level_ends.1.2]
  simp only [h, sectors.2.1, channel_bytes.1, channel_bytes.2.1]
  rfl

/-- At the end of the second there is nothing but green. -/
theorem ofHsv_end (h : hue * 6 = 2) : ofHsv hue fourFifths fourFifths = ⟨40, 204, 40⟩ := by
  obtain ⟨hfull, hleast, hend⟩ := channel_bytes
  obtain ⟨-, -, hfloor, hsector⟩ := sectors
  unfold ofHsv channels
  rw [if_neg level_ends.1.2]
  simp only [h, hfloor, hsector, hfull, hleast, hend]

/-! ## The scale -/

/-- A colour from red to green: blue at its least, and of red and green one full and the other
    anywhere between its least and full. -/
def OnScale (colour : Colour) : Prop :=
  colour.blue = 40 ∧ (40 ≤ colour.red ∧ colour.red ≤ 204)
    ∧ (40 ≤ colour.green ∧ colour.green ≤ 204) ∧ (colour.red = 204 ∨ colour.green = 204)

instance (colour : Colour) : Decidable (OnScale colour) :=
  inferInstanceAs (Decidable (_ ∧ _))

theorem full_bounds : (40 : UInt8) ≤ 204 ∧ (204 : UInt8) ≤ 204 := by decide

theorem onScale_green {green : UInt8} (h : 40 ≤ green ∧ green ≤ 204) : OnScale ⟨204, green, 40⟩ :=
  ⟨rfl, full_bounds, h, Or.inl rfl⟩

theorem onScale_red {red : UInt8} (h : 40 ≤ red ∧ red ≤ 204) : OnScale ⟨red, 204, 40⟩ :=
  ⟨rfl, h, full_bounds, Or.inr rfl⟩

/-- What is left at the ends of a sector, when the whole part is taken away. -/
theorem sector_ends :
    (∀ negative, (0 : Binary64).atMost (0 - zero negative) = true
      ∧ (1 - zero negative).atMost 1 = true)
      ∧ (0 : Binary64).atMost (1 - 1) = true ∧ (2 - 1 : Binary64).atMost 1 = true := by
  decide +kernel

/-- **The colour of a share is on the scale.** -/
theorem ofPosition_onScale {p : Binary64} (h : IsShare p) : OnScale (ofPosition p) := by
  have hhue := between_hue h
  unfold ofPosition
  generalize clamp p * 120 / 360 = hue at hhue
  rcases floor_cases hhue with ⟨negative, hfloor, hfirst⟩ | ⟨hfloor, hsecond⟩ | hend
  · obtain ⟨hlow, hhigh⟩ := sector_ends.1 negative
    have halong : IsShare (hue * 6 - zero negative) :=
      (hfirst.sub isShare_ends.1 isShare_ends.2 rfl).mono hlow hhigh
    rw [ofHsv_first hfloor]
    exact onScale_green (moving_bounds halong.complement)
  · have halong : IsShare (hue * 6 - 1) := by
      have hsub := hsecond.sub isShare_ends.2 (isFinite_ofInt (k := 2) (by decide)) isShare_ends.2
      exact hsub.mono sector_ends.2.1 sector_ends.2.2
    rw [ofHsv_second hfloor]
    exact onScale_red (moving_bounds halong)
  · rw [ofHsv_end hend]
    decide

/-- What is not a number is coloured red, but without the least of green. -/
theorem ofPosition_nan : ofPosition nan = ⟨204, 0, 40⟩ := by
  decide +kernel

end Colour

end DiceNotation
