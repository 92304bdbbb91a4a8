/-
  Random words, and a fair integer from them.

  A `WordSource` gives 64-bit words: first those that are queued, each once, and then an endless
  row that a 64-bit state generates.  The state walks through all words in equal strides (`stride`
  is odd, so it misses none), and `scramble` turns each into the word that is given.

  `between low high` is a fair integer between two bounds.  For a range of `r` integers a word `w`
  is multiplied by `r`: the high half of the product picks the integer, and the low half tells
  whether the word may be used.  Of the 2^64 words an equal number has to be kept for each integer,
  so a word whose low half lies above `zone r` is passed over and the next one tried.  If the range
  is all of the 64-bit integers, the word itself is the integer.

  Trying again ends.  A queue runs out, and the state comes by zero sooner or later; zero scrambles
  to the word zero (`scramble_zero`), whose product is zero and never passed over.
  `WordSource.patience` counts how many words that is at most, and every word that is passed over
  lowers it (`patience_lt`).  This is owed to the generator: another one may give words for ever that
  have to be passed over.  A run over it that does end is a run over a queue of the words that it has
  taken (`WordSource.Drawn.draw`, `Roll.Evaluated.evaluate_eq`).
-/

namespace DiceNotation

/-! ## Words -/

/-- Where random words come from. -/
structure WordSource where
  /-- Words that are given first. -/
  queue : List UInt64
  /-- The state of the generator behind the queue. -/
  state : UInt64
  /-- How many words were taken so far. -/
  taken : Nat
  deriving DecidableEq

namespace WordSource

/-- A source with a queue, a generator seeded with a word, and nothing taken. -/
def ofSeed (queue : List UInt64) (seed : UInt64) : WordSource :=
  ⟨queue, seed, 0⟩

/-- What the generator adds to its state for each word. -/
def stride : UInt64 := 0x9E3779B97F4A7C15

/-- The number of strides that add up to one. -/
def strideInverse : UInt64 := 0xF1DE83E19937733D

theorem stride_mul_inverse : stride * strideInverse = 1 := by decide

/-- The word that the generator gives for a state. -/
def scramble (state : UInt64) : UInt64 :=
  let z := (state ^^^ (state >>> 30)) * 0xBF58476D1CE4E5B9
  let z := (z ^^^ (z >>> 27)) * 0x94D049BB133111EB
  z ^^^ (z >>> 31)

theorem scramble_zero : scramble 0 = 0 := by decide

/-- The next word, and the source after it. -/
def next (source : WordSource) : UInt64 × WordSource :=
  match source.queue with
  | word :: queue => (word, ⟨queue, source.state, source.taken + 1⟩)
  | [] =>
    let state := source.state + stride
    (scramble state, ⟨[], state, source.taken + 1⟩)

/-! ## A word that may be used -/

/-- The largest low half that may be used for a range: as many words as possible, equally many
    for each integer of the range. -/
def zone (range : Nat) : Nat :=
  range * 2 ^ (63 - range.log2) - 1

/-- Whether a word may be used for a range. -/
def usable (range : Nat) (word : UInt64) : Bool :=
  word.toNat * range % 2 ^ 64 ≤ zone range

theorem usable_zero (range : Nat) : usable range 0 = true := by
  simp [usable]

/-- How many strides a state is away from zero. -/
def stridesToZero (state : UInt64) : Nat :=
  ((0 - state) * strideInverse).toNat

/-- How many words are taken at most until the generator gives a zero. -/
def patience (source : WordSource) : Nat :=
  source.queue.length + stridesToZero (source.state + stride)

theorem stridesToZero_add_stride {state : UInt64} (h : state ≠ 0) :
    stridesToZero (state + stride) < stridesToZero state := by
  have hstep : (0 - (state + stride)) * strideInverse = (0 - state) * strideInverse - 1 := by
    have := stride_mul_inverse
    grind
  have hne : (0 - state) * strideInverse ≠ 0 := by
    intro hz
    apply h
    have := stride_mul_inverse
    grind
  unfold stridesToZero
  rw [hstep]
  generalize (0 - state) * strideInverse = d at hne
  have hpos : 0 < d.toNat := by
    rcases Nat.eq_zero_or_pos d.toNat with h0 | h0
    · exact absurd (UInt64.toNat_inj.mp h0) hne
    · exact h0
  have hone : (1 : UInt64).toNat = 1 := rfl
  have hle : (1 : UInt64) ≤ d := UInt64.le_iff_toNat_le.mpr (by omega)
  rw [UInt64.toNat_sub_of_le _ _ hle]
  omega

/-- **A word that is passed over brings the end nearer.** -/
theorem patience_lt {source : WordSource} {range : Nat}
    (h : usable range source.next.1 = false) : source.next.2.patience < source.patience := by
  obtain ⟨queue, state, taken⟩ := source
  cases queue with
  | cons word queue => simp [next, patience]
  | nil =>
    simp only [next, patience, List.length_nil, Nat.zero_add] at h ⊢
    apply stridesToZero_add_stride
    intro hz
    rw [hz, scramble_zero, usable_zero] at h
    exact Bool.noConfusion h

-- unfolding `nextUsable` must not run the arithmetic of its measure
attribute [irreducible] patience

/-- The first word that may be used for a range, and the source after it. -/
def nextUsable (range : Nat) (source : WordSource) : UInt64 × WordSource :=
  if _h : usable range source.next.1 = true then source.next
  else nextUsable range source.next.2
termination_by source.patience
decreasing_by exact patience_lt (Bool.eq_false_iff.mpr _h)

/-! ## A fair integer -/

/-- A fair integer from `low` to `high`, for bounds in order. -/
def between (low high : Int64) (source : WordSource) : Int × WordSource :=
  let range := (high.toInt - low.toInt + 1).toNat
  if range = 2 ^ 64 then
    let (word, source) := source.next
    (word.toInt64.toInt, source)
  else
    let (word, source) := source.nextUsable range
    (low.toInt + (word.toNat * range / 2 ^ 64 : Nat), source)

end WordSource

end DiceNotation
