/-
  A fair integer by the arithmetic of words.

  `WordSource.between` computes with integers of any size.  A machine that draws fair integers has
  words of 64 bits and nothing else, and its sums, differences and products wrap around.  `Draw` is
  what it does, as a relation: a draw from a source ENDS in an integer and a source.

  1. The number of integers between two bounds is a word (`wordRange`).  It wraps around to zero for
     all of the 64-bit integers, and only there; otherwise it is the number (`toNat_wordRange`).
  2. Words whose low half of the product is above `wordZone` are passed over.  The shift moves the
     leading bit of the range to the top of the word and not out of it, so nothing is lost
     (`toNat_wordZone`), and the same words are passed over as by `usable` (`kept_iff_usable`).
  3. Adding the high half of the product to the lower bound wraps around twice and comes out right,
     because the sum lies between the bounds (`toInt_add_highHalf`).

  Therefore a draw ends in one way and no other, and that is what `between` says (`draw_iff`): it
  always ends, within the bounds (`Draw.bounds`).  And no integer within them is left out
  (`exists_between_eq`).

  That it always ends is due to the source.  A generator of words at large has a state, and a step from
  it to a word and the next state; if it gives words for ever that have to be passed over, a draw from
  it does not end (`not_drawn`).  A draw from it that does end (`Drawn`) has taken finitely many words
  and looks at nothing else, so it is the draw from a queue that begins with them (`Drawn.draw`).
-/
import DiceNotation.Proofs.Evaluation.Bounds

namespace DiceNotation.WordSource

/-! ## One draw -/

/-- The number of integers between two bounds, as a word. -/
def wordRange (low high : Int64) : UInt64 :=
  (high - low + 1).toUInt64

/-- How many zeros stand in front of the leading bit of a word that is not zero. -/
def leadingZeros (word : UInt64) : UInt64 :=
  UInt64.ofNat (63 - word.toNat.log2)

/-- The largest low half of a product that is kept for a range. -/
def wordZone (range : UInt64) : UInt64 :=
  (range <<< leadingZeros range) - 1

/-- The high half of the product of two words; the low half is their product as words. -/
def highHalf (word range : UInt64) : UInt64 :=
  UInt64.ofNat (word.toNat * range.toNat / 2 ^ 64)

/-- A draw between two bounds that ends in an integer and a source. -/
inductive Draw (low high : Int64) : WordSource → Int64 → WordSource → Prop
  /-- The word itself, if it may be any integer. -/
  | whole {source : WordSource} (hrange : wordRange low high = 0) :
      Draw low high source source.next.1.toInt64 source.next.2
  /-- A word that may be used. -/
  | kept {source : WordSource} (hrange : wordRange low high ≠ 0)
      (hkept : source.next.1 * wordRange low high ≤ wordZone (wordRange low high)) :
      Draw low high source (low + (highHalf source.next.1 (wordRange low high)).toInt64)
        source.next.2
  /-- A word that may not be used, and another draw. -/
  | passed {source rest : WordSource} {i : Int64} (hrange : wordRange low high ≠ 0)
      (hpassed : ¬ source.next.1 * wordRange low high ≤ wordZone (wordRange low high))
      (hrest : Draw low high source.next.2 i rest) : Draw low high source i rest

universe u

variable {low high : Int64} {range : UInt64} {source : WordSource}

/-! ## Draws from any generator -/

section Generator

variable {σ : Type u} {step : σ → UInt64 × σ} {state rest : σ} {words : List UInt64} {i : Int64}

/-- A draw between two bounds that ends: from a state, with the words that are taken, in an integer
    and the state after it. -/
inductive Drawn (step : σ → UInt64 × σ) (low high : Int64) :
    σ → List UInt64 → Int64 → σ → Prop
  /-- The word itself, if it may be any integer. -/
  | whole {state : σ} (hrange : wordRange low high = 0) :
      Drawn step low high state [(step state).1] (step state).1.toInt64 (step state).2
  /-- A word that may be used. -/
  | kept {state : σ} (hrange : wordRange low high ≠ 0)
      (hkept : (step state).1 * wordRange low high ≤ wordZone (wordRange low high)) :
      Drawn step low high state [(step state).1]
        (low + (highHalf (step state).1 (wordRange low high)).toInt64) (step state).2
  /-- A word that may not be used, and another draw. -/
  | passed {state rest : σ} {words : List UInt64} {i : Int64} (hrange : wordRange low high ≠ 0)
      (hpassed : ¬ (step state).1 * wordRange low high ≤ wordZone (wordRange low high))
      (hrest : Drawn step low high (step state).2 words i rest) :
      Drawn step low high state ((step state).1 :: words) i rest

/-- A draw ends in one way only, and takes the same words. -/
theorem Drawn.unique {j : Int64} {rest' : σ} {words' : List UInt64}
    (h : Drawn step low high state words i rest) (h' : Drawn step low high state words' j rest') :
    words = words' ∧ i = j ∧ rest = rest' := by
  induction h generalizing words' with
  | whole hrange =>
    cases h' with
    | whole _ => exact ⟨rfl, rfl, rfl⟩
    | kept hrange' _ => exact absurd hrange hrange'
    | passed hrange' _ _ => exact absurd hrange hrange'
  | kept hrange hkept =>
    cases h' with
    | whole hrange' => exact absurd hrange' hrange
    | kept _ _ => exact ⟨rfl, rfl, rfl⟩
    | passed _ hpassed _ => exact absurd hkept hpassed
  | passed hrange hpassed _ ih =>
    cases h' with
    | whole hrange' => exact absurd hrange' hrange
    | kept _ hkept => exact absurd hkept hpassed
    | passed _ _ hrest =>
      obtain ⟨rfl, rfl, rfl⟩ := ih hrest
      exact ⟨rfl, rfl, rfl⟩

/-- **A draw that ends is a draw from a queue.**  It takes the words at the front and leaves what is
    behind them. -/
theorem Drawn.draw (h : Drawn step low high state words i rest) (queue : List UInt64)
    (seed : UInt64) (taken : Nat) :
    Draw low high ⟨words ++ queue, seed, taken⟩ i ⟨queue, seed, taken + words.length⟩ := by
  induction h generalizing taken with
  | whole hrange => exact .whole hrange
  | kept hrange hkept => exact .kept hrange hkept
  | @passed state rest words i hrange hpassed _ ih =>
    refine .passed hrange hpassed ?_
    rw [List.length_cons, Nat.add_comm words.length, ← Nat.add_assoc]
    exact ih (taken + 1)

/-- **The draws of a source are the draws of a generator**: the source is the state, and the next word
    its step. -/
theorem draw_iff_drawn {source after : WordSource} :
    Draw low high source i after ↔ ∃ words, Drawn next low high source words i after := by
  constructor
  · intro h
    induction h with
    | whole hrange => exact ⟨_, .whole hrange⟩
    | kept hrange hkept => exact ⟨_, .kept hrange hkept⟩
    | passed hrange hpassed _ ih =>
      obtain ⟨words, hwords⟩ := ih
      exact ⟨_, .passed hrange hpassed hwords⟩
  · rintro ⟨words, h⟩
    induction h with
    | whole hrange => exact .whole hrange
    | kept hrange hkept => exact .kept hrange hkept
    | passed hrange hpassed _ ih => exact .passed hrange hpassed ih

/-- A draw ends in one way only. -/
theorem Draw.unique {i j : Int64} {rest rest' : WordSource} (h : Draw low high source i rest)
    (h' : Draw low high source j rest') : i = j ∧ rest = rest' := by
  obtain ⟨words, hwords⟩ := draw_iff_drawn.mp h
  obtain ⟨words', hwords'⟩ := draw_iff_drawn.mp h'
  exact (hwords.unique hwords').2

/-- **A generator that gives no word that may be used ends no draw.** -/
theorem not_drawn (hrange : wordRange low high ≠ 0)
    (hpassed : ∀ state, ¬ (step state).1 * wordRange low high ≤ wordZone (wordRange low high)) :
    ¬ Drawn step low high state words i rest := by
  intro h
  induction h with
  | whole hrange' => exact hrange hrange'
  | kept _ hkept => exact hpassed _ hkept
  | passed _ _ _ ih => exact ih

/-- Nothing but ones never makes a six-sided die fall. -/
example : ¬ Drawn (fun _ : Unit => (18446744073709551615, ())) 1 6 () words i () :=
  not_drawn (by decide) fun _ => by decide

end Generator

/-! ## Words and integers -/

/-- The word with the bits of an integer is the integer, up to a multiple of 2^64. -/
theorem toNat_toUInt64 (x : Int64) : (x.toUInt64.toNat : Int) = x.toInt % 2 ^ 64 := by
  have hbits : x.toInt = (x.toUInt64.toNat : Int).bmod (2 ^ 64) := BitVec.toInt_eq_toNat_bmod _
  have hlt := x.toUInt64.toNat_lt
  rw [hbits, show (2 ^ 64 : Int) = ((2 ^ 64 : Nat) : Int) from rfl, Int.bmod_emod]
  omega

theorem toInt_toInt64 (word : UInt64) :
    word.toInt64.toInt = (word.toNat : Int).bmod (2 ^ 64) :=
  BitVec.toInt_eq_toNat_bmod _

/-- **The range as a word** is the range, up to a multiple of 2^64. -/
theorem toNat_wordRange (h : low ≤ high) :
    (wordRange low high).toNat = (high.toInt - low.toInt + 1).toNat % 2 ^ 64 := by
  have hle : low.toInt ≤ high.toInt := Int64.le_iff_toInt_le.mp h
  have hword : ((wordRange low high).toNat : Int) = (high.toInt - low.toInt + 1) % 2 ^ 64 := by
    rw [wordRange, toNat_toUInt64, Int64.toInt_add, Int64.toInt_sub, Int.bmod_add_bmod]
    exact Int.bmod_emod
  omega

/-- It is zero for all of the 64-bit integers, and only there. -/
theorem wordRange_eq_zero_iff (h : low ≤ high) :
    wordRange low high = 0 ↔ (high.toInt - low.toInt + 1).toNat = 2 ^ 64 := by
  have hword := toNat_wordRange h
  have hle : low.toInt ≤ high.toInt := Int64.le_iff_toInt_le.mp h
  have hlow := low.le_toInt
  have hhigh := high.toInt_lt
  rw [← UInt64.toNat_inj, hword, UInt64.toNat_zero]
  omega

theorem toNat_wordRange_of_ne_zero (h : low ≤ high) (hrange : wordRange low high ≠ 0) :
    (wordRange low high).toNat = (high.toInt - low.toInt + 1).toNat := by
  have hle : low.toInt ≤ high.toInt := Int64.le_iff_toInt_le.mp h
  have hlow := low.le_toInt
  have hhigh := high.toInt_lt
  have hwhole := mt (wordRange_eq_zero_iff h).mpr hrange
  rw [toNat_wordRange h]
  omega

/-- **Shifting a range to the top of a word loses no bit of it.** -/
theorem toNat_wordZone (hrange : range ≠ 0) : (wordZone range).toNat = zone range.toNat := by
  have hne : range.toNat ≠ 0 := fun h => hrange (UInt64.toNat_inj.mp h)
  have hlog : range.toNat.log2 < 64 := (Nat.log2_lt hne).mpr range.toNat_lt
  have hzeros : (leadingZeros range).toNat = 63 - range.toNat.log2 := by
    rw [leadingZeros, UInt64.toNat_ofNat']
    omega
  -- the leading bit moves to the top of the word and no further
  have hlt : range.toNat * 2 ^ (63 - range.toNat.log2) < 2 ^ 64 := by
    calc range.toNat * 2 ^ (63 - range.toNat.log2)
        < 2 ^ (range.toNat.log2 + 1) * 2 ^ (63 - range.toNat.log2) :=
          Nat.mul_lt_mul_of_pos_right Nat.lt_log2_self (Nat.two_pow_pos _)
      _ = 2 ^ 64 := by
          rw [← Nat.pow_add]
          congr 1
          omega
  have hshift : (range <<< leadingZeros range).toNat
      = range.toNat * 2 ^ (63 - range.toNat.log2) := by
    rw [UInt64.toNat_shiftLeft, hzeros, Nat.mod_eq_of_lt (show 63 - range.toNat.log2 < 64 by omega),
      Nat.shiftLeft_eq, Nat.mod_eq_of_lt hlt]
  have hpos : 1 ≤ range <<< leadingZeros range := by
    rw [UInt64.le_iff_toNat_le, hshift]
    exact Nat.mul_pos (Nat.pos_of_ne_zero hne) (Nat.two_pow_pos _)
  rw [wordZone, UInt64.toNat_sub_of_le _ _ hpos, hshift]
  rfl

/-- The same words are passed over. -/
theorem kept_iff_usable (hrange : range ≠ 0) (word : UInt64) :
    word * range ≤ wordZone range ↔ usable range.toNat word = true := by
  rw [UInt64.le_iff_toNat_le, UInt64.toNat_mul, toNat_wordZone hrange, usable, decide_eq_true_iff]

/-- **The lower bound and the high half of a product add up without loss.** -/
theorem toInt_add_highHalf (h : low ≤ high) (hrange : wordRange low high ≠ 0) (word : UInt64) :
    (low + (highHalf word (wordRange low high)).toInt64).toInt
      = low.toInt + (word.toNat * (wordRange low high).toNat / 2 ^ 64 : Nat) := by
  have hle : low.toInt ≤ high.toInt := Int64.le_iff_toInt_le.mp h
  have hlow := low.le_toInt
  have hhigh := high.toInt_lt
  have hcount := toNat_wordRange_of_ne_zero h hrange
  have hpos : 0 < (wordRange low high).toNat := by omega
  have hshare : word.toNat * (wordRange low high).toNat / 2 ^ 64 < (wordRange low high).toNat :=
    Nat.div_lt_of_lt_mul (Nat.mul_lt_mul_of_pos_right word.toNat_lt hpos)
  have hhalf : (highHalf word (wordRange low high)).toNat
      = word.toNat * (wordRange low high).toNat / 2 ^ 64 := by
    rw [highHalf, UInt64.toNat_ofNat', Nat.mod_eq_of_lt]
    exact Nat.lt_trans hshare (wordRange low high).toNat_lt
  -- the true sum is at most `high`, so the one wrap that is left does nothing
  rw [Int64.toInt_add, toInt_toInt64, Int.add_bmod_bmod, hhalf]
  apply Int.bmod_eq_of_le
  · omega
  · omega

/-! ## Draws and fair integers -/

/-- A draw passes over words until one may be used. -/
theorem draw_nextUsable (hrange : wordRange low high ≠ 0) (source : WordSource) :
    Draw low high source
      (low + (highHalf (source.nextUsable (wordRange low high).toNat).1
        (wordRange low high)).toInt64)
      (source.nextUsable (wordRange low high).toNat).2 := by
  -- the words that are passed over lower the patience, which is what `nextUsable` recurses on
  induction source using nextUsable.induct (wordRange low high).toNat with
  | case1 source husable =>
    rw [nextUsable, dif_pos husable]
    exact .kept hrange ((kept_iff_usable hrange _).mpr husable)
  | case2 source husable ih =>
    rw [nextUsable, dif_neg husable]
    exact .passed hrange (mt (kept_iff_usable hrange _).mp husable) ih

theorem between_snd (low high : Int64) (source : WordSource) {range : Nat}
    (hrange : (high.toInt - low.toInt + 1).toNat = range) :
    (source.between low high).2 =
      if range = 2 ^ 64 then source.next.2 else (source.nextUsable range).2 := by
  rw [between, hrange]
  generalize source.nextUsable range = drawn
  obtain ⟨word, rest⟩ := drawn
  by_cases hwhole : range = 2 ^ 64
  · simp only [if_pos hwhole]
  · simp only [if_neg hwhole]

/-- What `between` says is a draw. -/
theorem draw_between (h : low ≤ high) (source : WordSource) :
    ∃ i : Int64, i.toInt = (source.between low high).1 ∧
      Draw low high source i (source.between low high).2 := by
  by_cases hrange : wordRange low high = 0
  · have hwhole := (wordRange_eq_zero_iff h).mp hrange
    rw [between_fst low high source hwhole, between_snd low high source hwhole]
    exact ⟨_, rfl, .whole hrange⟩
  · have hcount := (toNat_wordRange_of_ne_zero h hrange).symm
    have hpart : (wordRange low high).toNat ≠ 2 ^ 64 := Nat.ne_of_lt (wordRange low high).toNat_lt
    rw [between_fst low high source hcount, between_snd low high source hcount, if_neg hpart,
      if_neg hpart]
    exact ⟨_, toInt_add_highHalf h hrange _, draw_nextUsable hrange source⟩

/-- **A draw is a fair integer**: it ends where `between` says, and nowhere else. -/
theorem draw_iff (h : low ≤ high) {i : Int64} {rest : WordSource} :
    Draw low high source i rest ↔ source.between low high = (i.toInt, rest) := by
  obtain ⟨j, hj, hdraw⟩ := draw_between h source
  constructor
  · intro hi
    obtain ⟨rfl, rfl⟩ := hi.unique hdraw
    rw [hj]
  · intro hi
    rw [hi] at hj hdraw
    rw [← Int64.toInt_inj.mp hj]
    exact hdraw

/-- **A draw stays within its bounds.** -/
theorem Draw.bounds (h : low ≤ high) {i : Int64} {rest : WordSource}
    (hdraw : Draw low high source i rest) : low ≤ i ∧ i ≤ high := by
  have hbounds := between_bounds h source
  rw [(draw_iff h).mp hdraw] at hbounds
  exact ⟨Int64.le_iff_toInt_le.mpr hbounds.1, Int64.le_iff_toInt_le.mpr hbounds.2⟩

/-! ## No integer is left out -/

/-- **Each share of the range has a word that may be used**: the first whose product reaches it, for the
    low half of that product is less than the range. -/
theorem exists_usable {range k : Nat} (hk : k < range) (hrange : range < 2 ^ 64) :
    ∃ word : UInt64, word.toNat * range / 2 ^ 64 = k ∧ usable range word = true := by
  have hpos : 0 < range := by omega
  obtain ⟨w, hw⟩ : ∃ w, (k * 2 ^ 64 + (range - 1)) / range = w := ⟨_, rfl⟩
  have hdiv := Nat.div_add_mod (k * 2 ^ 64 + (range - 1)) range
  have hmod := Nat.mod_lt (k * 2 ^ 64 + (range - 1)) hpos
  rw [hw, Nat.mul_comm] at hdiv
  obtain ⟨low, hlow, hproduct⟩ : ∃ low, low < range ∧ w * range = k * 2 ^ 64 + low :=
    ⟨range - 1 - (k * 2 ^ 64 + (range - 1)) % range, by omega, by omega⟩
  have hlt : w < 2 ^ 64 := by
    have hnext : (k + 1) * 2 ^ 64 ≤ range * 2 ^ 64 := Nat.mul_le_mul_right _ hk
    have hless : w * range < 2 ^ 64 * range := by
      rw [hproduct, Nat.mul_comm (2 ^ 64)]
      omega
    exact Nat.lt_of_mul_lt_mul_right hless
  have hzone : low ≤ zone range := by
    have hle : range * 1 ≤ range * 2 ^ (63 - range.log2) :=
      Nat.mul_le_mul_left _ (Nat.two_pow_pos _)
    unfold zone
    omega
  refine ⟨UInt64.ofNat w, ?_, ?_⟩
  · rw [UInt64.toNat_ofNat', Nat.mod_eq_of_lt hlt, hproduct]
    omega
  · rw [usable, decide_eq_true_iff, UInt64.toNat_ofNat', Nat.mod_eq_of_lt hlt, hproduct]
    omega

/-- **Every integer between the bounds can be drawn.** -/
theorem exists_between_eq {i : Int} (hlow : low.toInt ≤ i) (hhigh : i ≤ high.toInt) :
    ∃ source : WordSource, (source.between low high).1 = i := by
  have hmin := low.le_toInt
  have hmax := high.toInt_lt
  obtain ⟨range, hrange⟩ : ∃ range, (high.toInt - low.toInt + 1).toNat = range := ⟨_, rfl⟩
  by_cases hwhole : range = 2 ^ 64
  · refine ⟨.ofSeed [(Int64.ofInt i).toUInt64] 0, ?_⟩
    rw [between_fst low high _ hrange, if_pos hwhole]
    exact Int64.toInt_ofInt_of_le (by omega) (by omega)
  · have hk : (i - low.toInt).toNat < range := by omega
    obtain ⟨word, hshare, husable⟩ := exists_usable hk (by omega)
    refine ⟨.ofSeed [word] 0, ?_⟩
    have hfirst : usable range (ofSeed [word] 0).next.1 = true := husable
    have hnext : (nextUsable range (ofSeed [word] 0)).1 = word := by
      rw [nextUsable, dif_pos hfirst]
      rfl
    rw [between_fst low high _ hrange, if_neg hwhole, hnext, hshare]
    omega

end DiceNotation.WordSource
