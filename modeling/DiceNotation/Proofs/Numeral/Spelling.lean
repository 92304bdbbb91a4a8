/-
  How whole numbers are spelled.

  The three readers of whole numbers are tests with a value.  This file says the same as a grammar:

  1. `IsDigits s`: one or more decimal digits and nothing else.  They say `Nat.ofDigitChars 10 s 0`.
  2. `Spells s i`: a plain spelling of an integer, which is `0` alone, or digits that do not start with
     a zero behind at most one sign.
  3. `SaysNumber s n` and `SaysInteger s x`: such a text with spaces and tabs around it.

  Each reader takes exactly the texts of its grammar, and gives the number that they say
  (`digits?_eq_some_iff`, `signed?_eq_some_iff`, `digits?_trimGap_iff`, `signed?_trimGap_iff`).  An
  integer is said as a word of 64 bits, so a spelling of one that does not fit says nothing.
-/
import DiceNotation.Proofs.Numeral.ReadBack
import DiceNotation.Proofs.Text.Pieces

namespace DiceNotation.Numeral

open Text

variable {s t : Text} {n : Nat} {i : Int} {x : Int64}

/-! ## Digits -/

/-- One or more decimal digits and nothing else. -/
def IsDigits (s : Text) : Prop :=
  s ≠ [] ∧ ∀ c ∈ s, c.isDigit = true

theorem isDigits_iff : IsDigits s ↔ s ≠ [] ∧ s.all Char.isDigit = true := by
  rw [List.all_eq_true, IsDigits]

instance : Decidable (IsDigits s) :=
  decidable_of_iff' _ isDigits_iff

theorem digits?_eq_some_iff : digits? s = some n ↔ IsDigits s ∧ value s = n := by
  unfold digits?
  by_cases h : IsDigits s
  · rw [if_pos (isDigits_iff.mp h), Option.some.injEq]
    exact ⟨fun hvalue => ⟨h, hvalue⟩, fun hboth => hboth.2⟩
  · rw [if_neg (mt isDigits_iff.mpr h)]
    exact ⟨fun hnone => (nomatch hnone), fun hboth => absurd hboth.1 h⟩

theorem positive?_eq_some_iff :
    positive? s = some n ↔ s.head? ≠ some '0' ∧ IsDigits s ∧ value s = n := by
  unfold positive?
  by_cases h : s.head? = some '0'
  · simp [h]
  · simp [h, digits?_eq_some_iff]

theorem IsDigits.freeOf {p : Char → Bool} (h : IsDigits s) (hp : FreeOf p figures) : FreeOf p s :=
  freeOf_of_figures (fun _ hc => mem_figures_of_isDigit (h.2 _ hc)) hp

/-! ## Integers -/

/-- A plain spelling of an integer: `0`, or digits that do not start with a zero behind at most one
    sign. -/
inductive Spells : Text → Int → Prop
  | zero : Spells ['0'] 0
  | bare {s : Text} (hs : IsDigits s) (hhead : s.head? ≠ some '0') :
      Spells s (Nat.ofDigitChars 10 s 0)
  | plus {s : Text} (hs : IsDigits s) (hhead : s.head? ≠ some '0') :
      Spells ('+' :: s) (Nat.ofDigitChars 10 s 0)
  | minus {s : Text} (hs : IsDigits s) (hhead : s.head? ≠ some '0') :
      Spells ('-' :: s) (-(Nat.ofDigitChars 10 s 0 : Int))

/-- Digits that do not start with a zero are read as they stand. -/
theorem plain?_of_isDigits (hs : IsDigits s) (hhead : s.head? ≠ some '0') :
    plain? s = some (value s : Int) := by
  have hread : positive? s = some (value s) := positive?_eq_some_iff.mpr ⟨hhead, hs, rfl⟩
  obtain ⟨-, hdigit⟩ := hs
  unfold plain?
  split
  · exact absurd rfl hhead
  · exact absurd (hdigit '+' List.mem_cons_self) (by decide)
  · exact absurd (hdigit '-' List.mem_cons_self) (by decide)
  · rw [hread]
    rfl

/-- **The plain spellings are what is read**, each as the integer that it spells. -/
theorem plain?_eq_some_iff : plain? s = some i ↔ Spells s i := by
  constructor
  · intro h
    unfold plain? at h
    split at h
    · obtain rfl := Option.some.inj h
      exact .zero
    · obtain ⟨n, hn, rfl⟩ := Option.map_eq_some_iff.mp h
      obtain ⟨hhead, hs, rfl⟩ := positive?_eq_some_iff.mp hn
      exact .plus hs hhead
    · obtain ⟨n, hn, rfl⟩ := Option.map_eq_some_iff.mp h
      obtain ⟨hhead, hs, rfl⟩ := positive?_eq_some_iff.mp hn
      exact .minus hs hhead
    · obtain ⟨n, hn, rfl⟩ := Option.map_eq_some_iff.mp h
      obtain ⟨hhead, hs, rfl⟩ := positive?_eq_some_iff.mp hn
      exact .bare hs hhead
  · intro h
    cases h with
    | zero => rfl
    | bare hs hhead => exact plain?_of_isDigits hs hhead
    | plus hs hhead =>
      rw [plain?, positive?_eq_some_iff.mpr ⟨hhead, hs, rfl⟩]
      rfl
    | minus hs hhead =>
      rw [plain?, positive?_eq_some_iff.mpr ⟨hhead, hs, rfl⟩]
      rfl

/-- A word that is read is the integer that the text says. -/
theorem plain?_of_signed? (h : signed? s = some x) : plain? s = some x.toInt := by
  obtain ⟨i, hi, h⟩ := Option.bind_eq_some_iff.mp h
  split at h
  · rename_i hrange
    obtain rfl := Option.some.inj h
    rw [hi, Int64.toInt_ofInt_of_le]
    · exact hrange.1
    · have := hrange.2
      have hmax : Int64.maxValue.toInt = 2 ^ 63 - 1 := by decide
      omega
  · cases h

/-- **A spelling is read if the integer fits**, and only then. -/
theorem signed?_eq_some_iff : signed? s = some x ↔ Spells s x.toInt := by
  constructor
  · intro h
    exact plain?_eq_some_iff.mp (plain?_of_signed? h)
  · intro h
    unfold signed?
    rw [plain?_eq_some_iff.mpr h]
    show (if _ then _ else _) = _
    rw [if_pos ⟨x.minValue_le_toInt, x.toInt_le⟩, Int64.ofInt_toInt]

/-- No cut is made in a spelling by what accepts neither a figure nor a sign. -/
theorem Spells.freeOf {p : Char → Bool} (h : Spells s i) (hp : FreeOf p figures)
    (hplus : p '+' = false) (hminus : p '-' = false) : FreeOf p s := by
  cases h with
  | zero => exact freeOf_cons.mpr ⟨hp '0' (by decide), freeOf_nil⟩
  | bare hs _ => exact hs.freeOf hp
  | plus hs _ => exact freeOf_cons.mpr ⟨hplus, hs.freeOf hp⟩
  | minus hs _ => exact freeOf_cons.mpr ⟨hminus, hs.freeOf hp⟩

/-! ## With gaps around them -/

/-- Digits with gaps around them, that say a number. -/
def SaysNumber (s : Text) (n : Nat) : Prop :=
  ∃ t, InGaps t s ∧ IsDigits t ∧ Nat.ofDigitChars 10 t 0 = n

/-- A plain spelling with gaps around it, of an integer of 64 bits. -/
def SaysInteger (s : Text) (x : Int64) : Prop :=
  ∃ t, InGaps t s ∧ Spells t x.toInt

theorem digits?_trimGap_iff : digits? s.trimGap = some n ↔ SaysNumber s n := by
  constructor
  · intro h
    exact ⟨s.trimGap, inGaps_trimGap s, digits?_eq_some_iff.mp h⟩
  · rintro ⟨t, ht, hdigits, hvalue⟩
    rw [ht.trimGap_eq (hdigits.freeOf (by decide))]
    exact digits?_eq_some_iff.mpr ⟨hdigits, hvalue⟩

theorem signed?_trimGap_iff : signed? s.trimGap = some x ↔ SaysInteger s x := by
  constructor
  · intro h
    exact ⟨s.trimGap, inGaps_trimGap s, signed?_eq_some_iff.mp h⟩
  · rintro ⟨t, ht, hspells⟩
    rw [ht.trimGap_eq (hspells.freeOf (by decide) rfl rfl)]
    exact signed?_eq_some_iff.mpr hspells

end DiceNotation.Numeral
