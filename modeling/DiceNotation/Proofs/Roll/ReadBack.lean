/-
  Rolls read back.

  A roll that is written plainly reads back to the same roll (`read_text`), with one exception: a
  row size that no layout shows is not written, and reads back as the one where none is written.
  `IsCanonical` says which rolls can be written at all: nothing in them is negative but the limit of
  a threshold, no set of targets is empty, and counts and sizes are in the range that the readers
  take.

  1. Each part reads back by itself: the dice (`Dice.read_text`), the format (`Format.read_text`),
     and the steps and groups, each in a module of its own.  A lower bound of 1 is left out, and a
     clause without a `:` starts at 1.
  2. The four texts are the parts of the whole (`isCut_text`).  For this no part may have a sigil
     of a later part in it, which is where the signs matter: a minus sign would be an operator.  Only
     the format is free to have one, since nothing comes after it.
  3. `Roll.read_eq_readParts` puts the parts together.

  From that, writing once more gives the same text, and every outcome is shown the same
  (`text_roundTrip`).
-/
import DiceNotation.Field
import DiceNotation.Proofs.Group.ReadBack
import DiceNotation.Proofs.Roll.Composition

namespace DiceNotation

open Text

variable {p : Char → Bool}

/-! ## Dice -/

namespace Dice

variable {dice : Dice}

/-- Dice that can be written and read again. -/
structure IsCanonical (dice : Dice) : Prop where
  count_pos : 1 ≤ dice.count
  count_le : dice.count ≤ maxDiceCount
  low_nonneg : 0 ≤ dice.low
  low_le_high : dice.low ≤ dice.high

instance (dice : Dice) : Decidable dice.IsCanonical :=
  decidable_of_iff (1 ≤ dice.count ∧ dice.count ≤ maxDiceCount ∧ 0 ≤ dice.low ∧ dice.low ≤ dice.high)
    ⟨fun ⟨h1, h2, h3, h4⟩ => ⟨h1, h2, h3, h4⟩, fun ⟨h1, h2, h3, h4⟩ => ⟨h1, h2, h3, h4⟩⟩

theorem low_toInt_nonneg (h : dice.IsCanonical) : 0 ≤ dice.low.toInt :=
  Int64.le_iff_toInt_le.mp h.low_nonneg

theorem high_toInt_nonneg (h : dice.IsCanonical) : 0 ≤ dice.high.toInt := by
  have hlow := low_toInt_nonneg h
  have hle := Int64.le_iff_toInt_le.mp h.low_le_high
  omega

/-- The bounds as they are written behind the `d`. -/
def rangeText (dice : Dice) : Text :=
  if dice.low = defaultLow then Numeral.ofInt dice.high.toInt
  else Numeral.ofInt dice.low.toInt ++ [':'] ++ Numeral.ofInt dice.high.toInt

theorem text_eq (dice : Dice) : dice.text = Numeral.ofNat dice.count ++ 'd' :: dice.rangeText := by
  rw [text, rangeText, List.append_assoc]
  rfl

theorem bounds?_of_upper (high : Int64) :
    bounds? (Numeral.ofInt high.toInt) = some (defaultLow, high) := by
  have hcolon : Text.onward (· == ':') (Numeral.ofInt high.toInt) = [] :=
    onward_of_freeOf (Numeral.freeOf_ofInt (by decide) (by decide) _)
  unfold bounds?
  rw [Numeral.trimGap_ofInt, if_neg (Numeral.ofInt_ne_nil _), hcolon]
  simp only [Numeral.signed?_toInt, Option.map_some]

theorem bounds?_of_both (low high : Int64) :
    bounds? (Numeral.ofInt low.toInt ++ [':'] ++ Numeral.ofInt high.toInt) = some (low, high) := by
  have htrim : Text.trimGap (Numeral.ofInt low.toInt ++ [':'] ++ Numeral.ofInt high.toInt)
      = Numeral.ofInt low.toInt ++ ':' :: Numeral.ofInt high.toInt := by
    rw [trimGap_of_freeOf, List.append_assoc]
    · rfl
    · refine freeOf_append.mpr ⟨freeOf_append.mpr ⟨?_, by decide⟩, ?_⟩
      · exact Numeral.freeOf_ofInt (by decide) (by decide) _
      · exact Numeral.freeOf_ofInt (by decide) (by decide) _
  have hfree : FreeOf (· == ':') (Numeral.ofInt low.toInt) :=
    Numeral.freeOf_ofInt (by decide) (by decide) _
  have hopen : OpensWith (· == ':') (':' :: Numeral.ofInt high.toInt) := opensWith_cons.mpr rfl
  unfold bounds?
  rw [htrim, if_neg (List.append_ne_nil_of_left_ne_nil (Numeral.ofInt_ne_nil _) _),
    onward_append hfree, onward_of_opensWith hopen, upTo_append hfree, upTo_of_opensWith hopen,
    List.append_nil]
  simp only [Numeral.trimGap_ofInt, Numeral.signed?_toInt]
  rfl

theorem bounds?_rangeText (dice : Dice) : bounds? dice.rangeText = some (dice.low, dice.high) := by
  unfold rangeText
  split
  · -- the bound that is left out is the one that is read where none is written
    rename_i hlow
    rw [bounds?_of_upper, hlow]
  · exact bounds?_of_both dice.low dice.high

theorem countOf_ofNat (n : Nat) : countOf (Numeral.ofNat n) = n := by
  rw [countOf, Numeral.trimGap_ofNat, Numeral.digits?_ofNat]
  rfl

/-- **What is written of dice reads as dice made of their count and bounds**, whether such dice are
    allowed or not, and also where the lower bound is left out. -/
theorem read_text_eq_ofBounds (dice : Dice) :
    read dice.text = ofBounds dice.count dice.low dice.high := by
  have hfree : FreeOf (· == 'd') (Numeral.ofNat dice.count) :=
    Numeral.freeOf_ofNat (by decide) _
  have hopen : OpensWith (· == 'd') ('d' :: dice.rangeText) := opensWith_cons.mpr rfl
  unfold read
  rw [text_eq, onward_append hfree, onward_of_opensWith hopen, upTo_append hfree,
    upTo_of_opensWith hopen, List.append_nil]
  simp only [countOf_ofNat, bounds?_rangeText]
  by_cases hmany : maxDiceCount < dice.count
  · -- both find the count too large, since it is not zero
    rw [if_pos hmany, ofBounds, if_neg (Nat.ne_zero_of_lt hmany), if_pos hmany]
  · rw [if_neg hmany]

/-- **Dice read back.** -/
theorem read_text (h : dice.IsCanonical) : read dice.text = .ok dice := by
  have hcount := h.count_le
  have horder : ¬ dice.high < dice.low := by
    have hle := Int64.le_iff_toInt_le.mp h.low_le_high
    rw [Int64.lt_iff_toInt_lt]
    omega
  rw [read_text_eq_ofBounds, ofBounds, if_neg (Nat.ne_of_gt h.count_pos), if_neg (by omega),
    if_neg horder]

/-- Dice have figures in them, a `d` and perhaps a `:`. -/
theorem text_freeOf (h : dice.IsCanonical) (hp : FreeOf p Numeral.figures)
    (hd : p 'd' = false) (hcolon : p ':' = false) : dice.text.FreeOf p := by
  have hbound : ∀ i : Int, 0 ≤ i → FreeOf p (Numeral.ofInt i) := by
    intro i hi
    rw [Numeral.ofInt_of_nonneg hi]
    exact Numeral.freeOf_ofNat hp _
  have hlow := hbound _ (low_toInt_nonneg h)
  have hhigh := hbound _ (high_toInt_nonneg h)
  rw [text_eq]
  refine freeOf_append.mpr ⟨?_, freeOf_cons.mpr ⟨hd, ?_⟩⟩
  · exact Numeral.freeOf_ofNat hp _
  · unfold rangeText
    split
    · exact hhigh
    · refine freeOf_append.mpr ⟨freeOf_append.mpr ⟨hlow, ?_⟩, hhigh⟩
      exact freeOf_cons.mpr ⟨hcolon, freeOf_nil⟩

end Dice

/-! ## Formats -/

namespace Format

variable {format : Format}

/-- A format that can be written and read again: its rows have a size that the reader takes. -/
structure IsCanonical (format : Format) : Prop where
  rowSize_pos : 1 ≤ format.rowSize
  rowSize_le : (format.rowSize : Int) ≤ Int64.maxValue.toInt

instance (format : Format) : Decidable format.IsCanonical :=
  decidable_of_iff (1 ≤ format.rowSize ∧ (format.rowSize : Int) ≤ Int64.maxValue.toInt)
    ⟨fun ⟨h1, h2⟩ => ⟨h1, h2⟩, fun ⟨h1, h2⟩ => ⟨h1, h2⟩⟩

/-- What is written of a format: not the row size, where there are no rows. -/
def written (format : Format) : Format :=
  { format with rowSize := if format.layout = .rows then format.rowSize else defaultRowSize }

/-- The directives that a format is written with, each with its argument. -/
def directives (format : Format) : List (Directive × Text) :=
  let layout : List (Directive × Text) :=
    match format.layout with
    | .valuesAndSum => []
    | .sumOnly => [(.sum, [])]
    | .listOnly => [(.list, [])]
    | .rows => [(.list, Numeral.ofNat format.rowSize)]
  let threshold : List (Directive × Text) :=
    match format.threshold with
    | none => []
    | some ⟨limit, .upward⟩ => [(.greater, Numeral.ofInt limit.toInt)]
    | some ⟨limit, .downward⟩ => [(.less, Numeral.ofInt limit.toInt)]
  layout ++ threshold

theorem text_eq (format : Format) :
    format.text = format.directives.flatMap fun x => x.1.sigil :: x.2 := by
  have hthreshold : ∀ layout rowSize threshold,
      (⟨layout, rowSize, threshold⟩ : Format).text
        = (⟨layout, rowSize, none⟩ : Format).text
          ++ (⟨.valuesAndSum, rowSize, threshold⟩ : Format).text := by
    intro layout rowSize threshold
    simp only [text, List.append_nil, List.nil_append]
  obtain ⟨layout, rowSize, threshold⟩ := format
  rw [hthreshold, directives, List.flatMap_append]
  congr 1
  · cases layout <;> simp [text]
  · rcases threshold with _ | ⟨limit, side⟩
    · rfl
    · cases side <;> simp [text, Threshold.text]

theorem text_opensWith (format : Format) : format.text.OpensWith Directive.isSigil := by
  rw [text_eq]
  cases format.directives with
  | nil => exact opensWith_nil
  | cons x directives =>
    apply opensWith_cons.mpr
    cases x.1 <;> rfl

/-- No argument has a directive or a blank in it. -/
theorem argument_freeOf {x : Directive × Text} (hx : x ∈ format.directives)
    (hp : FreeOf p Numeral.figures) (hminus : p '-' = false) : x.2.FreeOf p := by
  rcases List.mem_append.mp hx with hx | hx
  · split at hx
    · exact absurd hx List.not_mem_nil
    · rw [List.mem_singleton.mp hx]
      exact freeOf_nil
    · rw [List.mem_singleton.mp hx]
      exact freeOf_nil
    · rw [List.mem_singleton.mp hx]
      exact Numeral.freeOf_ofNat hp _
  · split at hx
    · exact absurd hx List.not_mem_nil
    · rw [List.mem_singleton.mp hx]
      exact Numeral.freeOf_ofInt hp hminus _
    · rw [List.mem_singleton.mp hx]
      exact Numeral.freeOf_ofInt hp hminus _

/-- **The directives are found again.** -/
theorem cut_text (format : Format) :
    Text.cut Directive.ofSigil? format.text = ([], format.directives) := by
  rw [text_eq]
  apply cut_flatMap
  · intro directive
    exact Directive.ofSigil?_eq_some_iff.mpr rfl
  · intro x hx
    exact argument_freeOf hx (by decide) (by decide)

theorem withThreshold_text (format : Format) (directive : Directive) (side : Side)
    (limit : Int64) :
    format.withThreshold directive side (Text.trim (Numeral.ofInt limit.toInt))
      = .ok { format with threshold := some ⟨limit, side⟩ } := by
  rw [Numeral.trim_ofInt, withThreshold, if_neg (Numeral.ofInt_ne_nil _)]
  simp only [Numeral.signed?_toInt]

theorem withDirective_rows (format : Format) {rowSize : Nat} (hpos : 1 ≤ rowSize)
    (hle : (rowSize : Int) ≤ Int64.maxValue.toInt) :
    format.withDirective .list (Text.trim (Numeral.ofNat rowSize))
      = .ok { format with layout := .rows, rowSize := rowSize } := by
  have hmax : Int64.maxValue.toInt = 2 ^ 63 - 1 := by decide
  have hmin : Int64.minValue.toInt = -2 ^ 63 := by decide
  have hread : Numeral.signed? (Numeral.ofNat rowSize) = some (Int64.ofInt rowSize) :=
    Numeral.signed?_ofInt (i := rowSize) (by omega) hle
  have hback : (Int64.ofInt rowSize).toInt = rowSize :=
    Int64.toInt_ofInt_of_le (by omega) (by omega)
  have hsize : (0 : Int64) < Int64.ofInt rowSize := by
    rw [Int64.lt_iff_toInt_lt, hback]
    exact Int.natCast_pos.mpr hpos
  rw [Numeral.trim_ofNat, withDirective, if_neg (Numeral.ofNat_ne_nil _), hread]
  simp only [Option.filter_some, hsize, decide_true, if_true, hback, Int.toNat_natCast]

/-- The layout comes first, and says nothing of a threshold. -/
theorem ofDirectives_layout (h : format.IsCanonical) :
    ofDirectives { format with threshold := none }.directives
      = .ok { format.written with threshold := none } := by
  obtain ⟨layout, rowSize, threshold⟩ := format
  cases layout with
  | valuesAndSum => rfl
  | sumOnly => rfl
  | listOnly => rfl
  | rows =>
    show (withDirective plain .list (Text.trim (Numeral.ofNat rowSize)) >>= pure) = _
    rw [withDirective_rows plain h.rowSize_pos h.rowSize_le]
    rfl

/-- The threshold comes on top of the layout, and leaves it as it is. -/
theorem ofDirectives_directives (h : format.IsCanonical) :
    ofDirectives format.directives = .ok format.written := by
  have hlayout := ofDirectives_layout h
  obtain ⟨layout, rowSize, threshold⟩ := format
  have happend : directives ⟨layout, rowSize, threshold⟩
      = directives ⟨layout, rowSize, none⟩ ++ directives ⟨.valuesAndSum, rowSize, threshold⟩ := by
    simp only [directives, List.append_nil, List.nil_append]
  rw [happend, ofDirectives, List.foldlM_append]
  show (ofDirectives (directives ⟨layout, rowSize, none⟩) >>= _) = _
  rw [hlayout]
  rcases threshold with _ | ⟨limit, _ | _⟩
  · rfl
  · show (withThreshold _ .greater .upward (Text.trim (Numeral.ofInt limit.toInt)) >>= pure) = _
    rw [withThreshold_text]
    rfl
  · show (withThreshold _ .less .downward (Text.trim (Numeral.ofInt limit.toInt)) >>= pure) = _
    rw [withThreshold_text]
    rfl

/-- **A format reads back**, but for a row size that is not written. -/
theorem read_text (h : format.IsCanonical) : read format.text = .ok ([], format.written) := by
  rw [read_eq, cut_text, upTo_of_opensWith format.text_opensWith, ofDirectives_directives h]
  rfl

/-- What is not written of a format is not shown either. -/
theorem body_written (format : Format) (values : List Binary64) :
    format.written.body values = format.body values := by
  obtain ⟨layout, rowSize, threshold⟩ := format
  cases layout <;> rfl

theorem text_written (format : Format) : format.written.text = format.text := by
  obtain ⟨layout, rowSize, threshold⟩ := format
  cases layout <;> rfl

end Format

theorem Outcome.fields_written (format : Format) (outcome : Outcome) :
    outcome.fields format.written = outcome.fields format := by
  simp only [fields, Format.body_written]

theorem Outcome.fieldsWithin_written (format : Format) (outcome : Outcome) (limit : Nat) :
    outcome.fieldsWithin format.written limit = outcome.fieldsWithin format limit := by
  simp only [fieldsWithin, fields_written]

/-! ## Rolls -/

namespace Roll

variable {roll : Roll}

/-- A roll that can be written and read again. -/
structure IsCanonical (roll : Roll) : Prop where
  dice : roll.dice.IsCanonical
  plain : ∀ step ∈ roll.steps, step.operand.IsPlain
  groups : ∀ group ∈ roll.groups, group.IsCanonical
  format : roll.format.IsCanonical

instance (roll : Roll) : Decidable roll.IsCanonical :=
  decidable_of_iff (roll.dice.IsCanonical ∧ (∀ step ∈ roll.steps, step.operand.IsPlain) ∧
      (∀ group ∈ roll.groups, group.IsCanonical) ∧ roll.format.IsCanonical)
    ⟨fun ⟨h1, h2, h3, h4⟩ => ⟨h1, h2, h3, h4⟩, fun ⟨h1, h2, h3, h4⟩ => ⟨h1, h2, h3, h4⟩⟩

theorem text_eq (roll : Roll) :
    roll.text = roll.dice.text ++ (roll.steps.flatMap Step.text ++ Group.allText roll.groups)
      ++ roll.format.text := by
  rw [text, List.append_assoc roll.dice.text]
  rfl

/-- **The parts stay apart**: none has a sigil in it that ends it or a part in front of it. -/
theorem isCut_text (h : roll.IsCanonical) :
    IsCut roll.dice.text (roll.steps.flatMap Step.text) (Group.allText roll.groups)
      roll.format.text where
  dice_free := Dice.text_freeOf h.dice (by decide) (by decide) (by decide)
  steps_free := Step.flatMap_text_freeOf h.plain (fun o => by cases o <;> rfl) (by decide)
  steps_open := Step.flatMap_text_opensWith roll.steps
  groups_free := by
    apply Group.allText_freeOf
    · intro group hgroup
      exact (h.groups group hgroup).plain
    · decide
    · intro o
      cases o <;> rfl
    · decide
  groups_open := Group.allText_opensWith roll.groups
  format_open := roll.format.text_opensWith

/-- **A roll reads back**, with its text as its source. -/
theorem read_text (h : roll.IsCanonical) :
    read roll.text = .ok ⟨roll.text, roll.dice, roll.steps, roll.groups, roll.format.written⟩ := by
  rw [text_eq, read_eq_readParts (isCut_text h), readParts, Format.read_text h.format]
  show (Dice.read roll.dice.text >>= _) = _
  rw [Dice.read_text h.dice]
  show (Step.readAll (roll.steps.flatMap Step.text) >>= _) = _
  rw [Step.readAll_text h.plain]
  show (Group.readAll (Group.allText roll.groups) >>= _) = _
  rw [Group.readAll_text h.groups]
  rfl

/-- What a reading changes of a roll is not written. -/
theorem text_written (roll : Roll) (source : Text) :
    (⟨source, roll.dice, roll.steps, roll.groups, roll.format.written⟩ : Roll).text = roll.text := by
  simp only [text, Format.text_written]

/-- **Writing and reading do not drift apart.**  A canonical roll reads back with its dice, steps,
    groups, layout and threshold, and with its row size where there are rows; so it is written the
    same again, and shows every outcome the same. -/
theorem text_roundTrip (h : roll.IsCanonical) :
    ∃ again, read roll.text = .ok again ∧
      again.source = roll.text ∧
      again.dice = roll.dice ∧
      again.steps = roll.steps ∧
      again.groups = roll.groups ∧
      again.format.layout = roll.format.layout ∧
      again.format.threshold = roll.format.threshold ∧
      again.format.rowSize = (if roll.format.layout = .rows then roll.format.rowSize else 20) ∧
      again.text = roll.text ∧
      (∀ values, again.format.body values = roll.format.body values) ∧
      (∀ outcome : Outcome, outcome.fields again.format = outcome.fields roll.format) ∧
      ∀ (outcome : Outcome) (limit : Nat),
        outcome.fieldsWithin again.format limit = outcome.fieldsWithin roll.format limit := by
  refine ⟨_, read_text h, rfl, rfl, rfl, rfl, rfl, rfl, rfl, text_written roll roll.text, ?_, ?_, ?_⟩
  · exact roll.format.body_written
  · exact Outcome.fields_written roll.format
  · exact Outcome.fieldsWithin_written roll.format

/-- A roll with a lower bound of 1, which is left out, a fraction that has no end in binary, a group
    without steps beside one with a step, the largest position and the least limit. -/
theorem text_roundTrip_leftOut :
    let roll : Roll := ⟨[], ⟨3, 1, 20⟩, [⟨.divide, Decimal.toBinary64 false ⟨1, -1⟩⟩],
      [⟨[2, 18446744073709551615], []⟩, ⟨[1], [⟨.subtract, 1000000000000000000000⟩]⟩],
      ⟨.rows, 5, some ⟨Int64.minValue, .downward⟩⟩⟩
    roll.IsCanonical ∧
    roll.text = ("3d20/0.1i2,18446744073709551615:;i1:-1000000000000000000000" ++
      "l5<-9223372036854775808").toList ∧
    ∃ again, read roll.text = .ok again ∧ again.dice = roll.dice ∧ again.steps = roll.steps ∧
      again.groups = roll.groups ∧ again.text = roll.text := by
  intro roll
  have h : roll.IsCanonical := by
    subst roll
    decide +kernel
  obtain ⟨again, hread, -, hdice, hsteps, hgroups, -, -, -, htext, -⟩ := text_roundTrip h
  exact ⟨h, by decide +kernel, again, hread, hdice, hsteps, hgroups, htext⟩

end Roll

end DiceNotation
