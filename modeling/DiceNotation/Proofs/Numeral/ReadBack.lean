/-
  Whole numbers read back.

  What `ofNat` and `ofInt` write, the readers give back: a natural number as a run of digits
  (`digits?_ofNat`), and an integer of 64 bits in its plain spelling (`signed?_toInt`).  The plain
  spelling refuses a leading zero, so the crux is that a positive number is never written with one
  (`head?_ofNat`), by induction on its digits from the last to the first.

  Where a number stands inside other text, no reader must cut it in two.  `figures` are the
  characters that unsigned numbers are written with; that a text has no others is all that a cutter
  needs to know of it (`freeOf_of_figures`).
-/
import DiceNotation.Numeral
import DiceNotation.Proofs.Text.Cutting

namespace DiceNotation.Numeral

open Text

variable {n : Nat} {s : Text} {c : Char}

/-! ## Figures -/

/-- The characters that unsigned numbers are written with. -/
def figures : List Char :=
  ['0', '1', '2', '3', '4', '5', '6', '7', '8', '9', '.']

theorem mem_figures_of_isDigit (h : c.isDigit = true) : c ∈ figures := by
  have hbounds : 48 ≤ c.toNat ∧ c.toNat ≤ 57 := by
    simpa [Char.isDigit, UInt32.le_iff_toNat_le] using h
  have hc : c = Char.ofNat c.toNat := (Char.ofNat_toNat c).symm
  obtain h | h | h | h | h | h | h | h | h | h : c.toNat = 48 ∨ c.toNat = 49 ∨ c.toNat = 50 ∨
      c.toNat = 51 ∨ c.toNat = 52 ∨ c.toNat = 53 ∨ c.toNat = 54 ∨ c.toNat = 55 ∨ c.toNat = 56 ∨
      c.toNat = 57 := by omega
  all_goals
    rw [hc, h]
    decide

/-- No cut is made in a text of figures by what accepts no figure. -/
theorem freeOf_of_figures {p : Char → Bool} (hs : s ⊆ figures)
    (hp : FreeOf p figures) : s.FreeOf p :=
  fun c hc => hp c (hs hc)

/-! ## Natural numbers -/

theorem isDigit_of_mem_ofNat (h : c ∈ ofNat n) : c.isDigit = true :=
  Nat.isDigit_of_mem_toDigits (by decide) (by decide) h

theorem ofNat_subset_figures (n : Nat) : ofNat n ⊆ figures :=
  fun _ h => mem_figures_of_isDigit (isDigit_of_mem_ofNat h)

theorem freeOf_ofNat {p : Char → Bool} (hp : FreeOf p figures) (n : Nat) : FreeOf p (ofNat n) :=
  freeOf_of_figures (ofNat_subset_figures n) hp

theorem ofNat_ne_nil (n : Nat) : ofNat n ≠ [] :=
  Nat.toDigits_ne_nil

theorem value_ofNat (n : Nat) : value (ofNat n) = n :=
  Nat.ofDigitChars_ten_toDigits

theorem all_isDigit_ofNat (n : Nat) : (ofNat n).all Char.isDigit = true :=
  List.all_eq_true.mpr fun _ h => isDigit_of_mem_ofNat h

/-- **A natural number reads back.** -/
theorem digits?_ofNat (n : Nat) : digits? (ofNat n) = some n := by
  unfold digits?
  rw [if_pos ⟨ofNat_ne_nil n, all_isDigit_ofNat n⟩, value_ofNat]

/-- **A positive number has no leading zero.**  Taking off the last digit leaves a smaller positive
    number with the same first digit, until one digit is left. -/
theorem head?_ofNat (h : 0 < n) : (ofNat n).head? ≠ some '0' := by
  induction n using Nat.strongRecOn with
  | ind n ih =>
    rcases Nat.lt_or_ge n 10 with hn | hn
    · -- one digit, which is not zero
      have hfew : n = 1 ∨ n = 2 ∨ n = 3 ∨ n = 4 ∨ n = 5 ∨ n = 6 ∨ n = 7 ∨ n = 8 ∨ n = 9 := by omega
      rcases hfew with rfl | rfl | rfl | rfl | rfl | rfl | rfl | rfl | rfl <;> decide
    · have hstep : ofNat n = ofNat (n / 10) ++ [(n % 10).digitChar] :=
        Nat.toDigits_of_base_le (by decide) hn
      have hhead := ih (n / 10) (by omega) (by omega)
      rw [hstep]
      cases hfront : ofNat (n / 10) with
      | nil => exact absurd hfront (ofNat_ne_nil _)
      | cons d rest =>
        rw [hfront] at hhead
        exact hhead

theorem trim_ofNat (n : Nat) : trim (ofNat n) = ofNat n :=
  trim_of_freeOf (freeOf_ofNat (by decide) n)

theorem trimGap_ofNat (n : Nat) : trimGap (ofNat n) = ofNat n :=
  trimGap_of_freeOf (freeOf_ofNat (by decide) n)

theorem positive?_ofNat (h : 0 < n) : positive? (ofNat n) = some n := by
  unfold positive?
  rw [if_neg (head?_ofNat h), digits?_ofNat]

/-- Digits in front count for as many tens as there are digits behind them. -/
theorem value_append (s t : Text) : value (s ++ t) = value s * 10 ^ t.length + value t := by
  unfold value
  rw [Nat.ofDigitChars_append, Nat.ofDigitChars_eq_ofDigitChars_zero, Nat.mul_comm]

theorem value_append_zeros (s : Text) (z : Nat) :
    value (s ++ List.replicate z '0') = value s * 10 ^ z := by
  unfold value
  rw [Nat.ofDigitChars_append, Nat.ofDigitChars_replicate_zero, Nat.mul_comm]

theorem value_zeros_append (s : Text) (z : Nat) :
    value (List.replicate z '0' ++ s) = value s := by
  unfold value
  rw [Nat.ofDigitChars_append, Nat.ofDigitChars_replicate_zero, Nat.mul_zero]

/-! ## Integers -/

/-- A text of digits that does not open with a zero is read as it stands. -/
theorem plain?_ofNat (h : 0 < n) : plain? (ofNat n) = some (n : Int) := by
  have hpos := positive?_ofNat h
  have hhead := head?_ofNat h
  have hdigit : ∀ c ∈ ofNat n, c.isDigit = true := fun c hc => isDigit_of_mem_ofNat hc
  generalize ofNat n = s at hpos hhead hdigit
  unfold plain?
  split
  · exact absurd rfl hhead
  · exact absurd (hdigit '+' List.mem_cons_self) (by decide)
  · exact absurd (hdigit '-' List.mem_cons_self) (by decide)
  · rw [hpos]
    rfl

/-- **An integer reads back** from its plain spelling. -/
theorem plain?_ofInt (i : Int) : plain? (ofInt i) = some i := by
  unfold ofInt
  split
  · rename_i hneg
    show (positive? (ofNat i.natAbs)).map (fun n => -Int.ofNat n) = some i
    rw [positive?_ofNat (by omega)]
    show some (-(i.natAbs : Int)) = some i
    congr 1
    omega
  · rename_i hnonneg
    rcases Nat.eq_zero_or_pos i.natAbs with hzero | hpos
    · obtain rfl : i = 0 := by omega
      rfl
    · rw [plain?_ofNat hpos]
      congr 1
      omega

theorem signed?_ofInt {i : Int} (hlow : Int64.minValue.toInt ≤ i) (hhigh : i ≤ Int64.maxValue.toInt) :
    signed? (ofInt i) = some (Int64.ofInt i) := by
  unfold signed?
  rw [plain?_ofInt]
  show (if _ then _ else _) = _
  rw [if_pos ⟨hlow, hhigh⟩]

/-- **Every 64-bit integer reads back.** -/
theorem signed?_toInt (x : Int64) : signed? (ofInt x.toInt) = some x := by
  rw [signed?_ofInt x.minValue_le_toInt x.toInt_le, Int64.ofInt_toInt]

theorem ofInt_of_nonneg {i : Int} (h : 0 ≤ i) : ofInt i = ofNat i.natAbs :=
  if_neg (by omega)

theorem ofInt_ne_nil (i : Int) : ofInt i ≠ [] := by
  unfold ofInt
  split
  · exact List.cons_ne_nil _ _
  · exact ofNat_ne_nil _

/-- No cut is made in an integer by what accepts neither a figure nor the minus sign. -/
theorem freeOf_ofInt {p : Char → Bool} (hp : FreeOf p figures) (hminus : p '-' = false)
    (i : Int) : FreeOf p (ofInt i) := by
  unfold ofInt
  split
  · exact freeOf_cons.mpr ⟨hminus, freeOf_ofNat hp _⟩
  · exact freeOf_ofNat hp _

theorem trim_ofInt (i : Int) : trim (ofInt i) = ofInt i :=
  trim_of_freeOf (freeOf_ofInt (by decide) (by decide) i)

theorem trimGap_ofInt (i : Int) : trimGap (ofInt i) = ofInt i :=
  trimGap_of_freeOf (freeOf_ofInt (by decide) (by decide) i)

end DiceNotation.Numeral
