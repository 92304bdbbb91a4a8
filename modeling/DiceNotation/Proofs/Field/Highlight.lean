/-
  What stands out, and what is printed.

  A value that passes the threshold is printed between asterisks.  Compared is what the value settles
  to; printed is a text.  Whoever has nothing but the text can check the asterisks all the same: read
  the printed number back, compare that, and it is marked just if it passes (`Outcome.fields_agree`).

  1. The two numbers need not be one and the same, for `-0` is printed as `0`.  But they have the same
     place in the order (`ofText?_numberText`), and a threshold looks at nothing else
     (`passes_congr`).  So what is printed alike is marked alike (`valueText_congr`).
  2. The words for what is no finite number are not read back (`isSome_ofText?_numberText`).  Each of them
     stands for one value, and that is compared (`readBack`).
  3. The entries are told from the text of a body, as `entries` finds them.
-/
import DiceNotation.Proofs.Binary64.Integer
import DiceNotation.Proofs.Field.Entries
import DiceNotation.Proofs.Field.Limit

namespace DiceNotation

open Text

variable {value other : Binary64} {threshold : Threshold} {format : Format}

/-! ## A printed number, read back -/

/-- **What is printed of a finite value reads back**, to a number at the place of the settled one. -/
theorem ofText?_numberText (h : value.isFinite = true) :
    ∃ back, Binary64.ofText? (numberText value) = some back ∧ back.rank? = (settle value).rank? := by
  rcases numberText_cases value with ⟨i, hint, -, htext⟩ | ⟨hself, htext⟩
  · rw [htext]
    exact ⟨_, Binary64.ofText?_ofInt i, Binary64.rank?_ofInt_of_toInt? hint⟩
  · rw [htext, hself]
    exact ⟨value, Binary64.ofText?_text h, rfl⟩

theorem eq_of_not_finite (h : value.isFinite = false) :
    value = .nan ∨ ∃ negative, value = .infinite negative := by
  cases value with
  | nan => exact Or.inl rfl
  | infinite negative => exact Or.inr ⟨negative, rfl⟩
  | finite negative g hg => cases h

/-- What is not finite is settled, and is printed as the word for it. -/
theorem settle_of_not_finite (h : value.isFinite = false) :
    settle value = value ∧ numberText value = value.text := by
  have hself : settle value = value := by
    rcases settle_eq value with hself | hround
    · exact hself
    · rw [hround]
      rcases eq_of_not_finite h with rfl | ⟨negative, rfl⟩
      · rfl
      · rfl
  refine ⟨hself, ?_⟩
  unfold numberText
  rw [hself]
  rcases eq_of_not_finite h with rfl | ⟨negative, rfl⟩
  · rfl
  · rfl

/-- **The words for what is not finite are no numbers**, and everything else that is printed is one. -/
theorem isSome_ofText?_numberText (value : Binary64) :
    (Binary64.ofText? (numberText value)).isSome = value.isFinite := by
  cases hfin : value.isFinite with
  | true =>
    obtain ⟨back, hread, -⟩ := ofText?_numberText hfin
    rw [hread, Option.isSome_some]
  | false =>
    have hwords : ∀ negative, Binary64.ofText? (Binary64.infinite negative).text = none := by decide
    rw [(settle_of_not_finite hfin).2]
    rcases eq_of_not_finite hfin with rfl | ⟨negative, rfl⟩
    · decide
    · rw [hwords, Option.isSome_none]

/-- Each of these words stands for one value. -/
theorem eq_of_text_eq (hvalue : value.isFinite = false) (hother : other.isFinite = false)
    (h : value.text = other.text) : value = other := by
  have hword : ∀ negative, (Binary64.infinite negative).text ≠ Binary64.nan.text := by decide
  have hsigns : ∀ s t, (Binary64.infinite s).text = (Binary64.infinite t).text → s = t := by decide
  rcases eq_of_not_finite hvalue with rfl | ⟨s, rfl⟩
  · rcases eq_of_not_finite hother with rfl | ⟨t, rfl⟩
    · rfl
    · exact absurd h.symm (hword t)
  · rcases eq_of_not_finite hother with rfl | ⟨t, rfl⟩
    · exact absurd h (hword s)
    · rw [hsigns s t h]

/-! ## What is seen -/

/-- The value that is seen in a printed text: the number that it reads back to, or the value itself if
    it is none. -/
def readBack (value : Binary64) (printed : Text) : Binary64 :=
  (Binary64.ofText? printed).getD value

/-- **What is seen has the place of what is compared.** -/
theorem rank?_readBack (value : Binary64) :
    (readBack value (numberText value)).rank? = (settle value).rank? := by
  unfold readBack
  cases hfin : value.isFinite with
  | true =>
    obtain ⟨back, hread, hplace⟩ := ofText?_numberText hfin
    rw [hread]
    exact hplace
  | false =>
    have hnone := isSome_ofText?_numberText value
    rw [hfin, Option.isSome_eq_false_iff, Option.isNone_iff_eq_none] at hnone
    rw [hnone, (settle_of_not_finite hfin).1]
    rfl

/-- What is printed alike has been compared at the same place. -/
theorem rank?_settle_congr (h : numberText value = numberText other) :
    (settle value).rank? = (settle other).rank? := by
  have hvalue := isSome_ofText?_numberText value
  have hother := isSome_ofText?_numberText other
  rw [← rank?_readBack value, ← rank?_readBack other, readBack, readBack]
  rw [h] at hvalue ⊢
  cases hread : Binary64.ofText? (numberText other) with
  | some back => rfl
  | none =>
    -- the word for the one is the word for the other
    rw [hread, Option.isSome_none] at hvalue hother
    rw [(settle_of_not_finite hvalue.symm).2, (settle_of_not_finite hother.symm).2] at h
    rw [eq_of_text_eq hvalue.symm hother.symm h]

/-- **A threshold cannot tell apart what has the same place.** -/
theorem passes_congr (threshold : Threshold) (h : value.rank? = other.rank?) :
    threshold.passes value = threshold.passes other := by
  unfold Threshold.passes
  cases threshold.side with
  | upward => exact Binary64.atMost_congr rfl h
  | downward => exact Binary64.atMost_congr h rfl

/-- A limit passes its own threshold. -/
theorem passes_limit (threshold : Threshold) :
    threshold.passes (Binary64.ofInt threshold.limit.toInt) = true := by
  have hself := Binary64.ofInt_atMost_ofInt (Int.le_refl threshold.limit.toInt)
  unfold Threshold.passes
  cases threshold.side with
  | upward => exact hself
  | downward => exact hself

/-! ## Marks -/

/-- **What is printed alike is marked alike.** -/
theorem valueText_congr (threshold : Threshold) (h : numberText value = numberText other) :
    valueText (some threshold) value = valueText (some threshold) other := by
  rw [valueText_some, valueText_some, passes_congr threshold (rank?_settle_congr h), h]

/-- **What is printed as the limit is marked.** -/
theorem valueText_of_limit (h : numberText value = Numeral.ofInt threshold.limit.toInt) :
    valueText (some threshold) value = bold (numberText value) := by
  have hback : readBack value (numberText value) = Binary64.ofInt threshold.limit.toInt := by
    rw [readBack, h, Binary64.ofText?_ofInt, Option.getD_some]
  have hplace := rank?_readBack value
  rw [hback] at hplace
  rw [valueText_some, ← passes_congr threshold hplace, if_pos (passes_limit threshold)]

/-- An entry is marked just if the settled value passes. -/
theorem valueText_eq_bold_iff (threshold : Threshold) (value : Binary64) :
    valueText (some threshold) value = bold (printed (valueText (some threshold) value)) ↔
      threshold.passes (settle value) = true := by
  rw [printed_valueText, valueText_some]
  cases threshold.passes (settle value) with
  | true => exact ⟨fun _ => rfl, fun _ => rfl⟩
  | false => exact ⟨fun h => absurd h.symm (bold_ne _), fun h => nomatch h⟩

theorem valueText_eq_printed_iff (threshold : Threshold) (value : Binary64) :
    valueText (some threshold) value = printed (valueText (some threshold) value) ↔
      threshold.passes (settle value) = false := by
  rw [printed_valueText, valueText_some]
  cases threshold.passes (settle value) with
  | true => exact ⟨fun h => absurd h (bold_ne _), fun h => nomatch h⟩
  | false => exact ⟨fun _ => rfl, fun _ => rfl⟩

/-- An entry that agrees with its value under a threshold: without its asterisks it is the number of
    the value, which reads back just if the value is finite; and it has its asterisks around it just
    if the threshold passes what is seen in it, and has none if not. -/
structure Agrees (threshold : Threshold) (value : Binary64) (entry : Text) : Prop where
  number : printed entry = numberText value
  reads : (Binary64.ofText? (printed entry)).isSome = value.isFinite
  marked : entry = bold (printed entry) ↔ threshold.passes (readBack value (printed entry)) = true
  plain : entry = printed entry ↔ threshold.passes (readBack value (printed entry)) = false

theorem agrees_valueText (threshold : Threshold) (value : Binary64) :
    Agrees threshold value (valueText (some threshold) value) := by
  have hprinted := printed_valueText threshold value
  have hpasses : threshold.passes (readBack value (printed (valueText (some threshold) value)))
      = threshold.passes (settle value) := by
    rw [hprinted]
    exact passes_congr threshold (rank?_readBack value)
  refine ⟨hprinted, ?_, ?_, ?_⟩
  · rw [hprinted]
    exact isSome_ofText?_numberText value
  · rw [hpasses]
    exact valueText_eq_bold_iff threshold value
  · rw [hpasses]
    exact valueText_eq_printed_iff threshold value

/-! ## What stands out agrees with what is shown -/

/-- A body that agrees with its values under a threshold: the entries agree with the values one by one,
    and behind them stands the sum or nothing, without asterisks. -/
structure BodyAgrees (threshold : Threshold) (layout : Layout) (body : Text)
    (values : List Binary64) : Prop where
  entries : List.Forall₂ (Agrees threshold) values (entries body)
  sum : sumPart body
    = if layout = .valuesAndSum ∧ 1 < values.length
      then "(sum: ".toList ++ sumText values ++ [')'] else []
  sum_plain : (sumPart body).FreeOf (· == '*')

theorem bodyAgrees (hthreshold : format.threshold = some threshold)
    (hlayout : format.layout ≠ .sumOnly) (values : List Binary64) :
    BodyAgrees threshold format.layout (format.body values) values := by
  obtain ⟨hplain, hsum⟩ := sumPart_body hlayout values
  refine ⟨?_, hsum, hplain⟩
  rw [entries_body hlayout, hthreshold, List.forall₂_map_right_iff, List.forall₂_same]
  exact fun value _ => agrees_valueText threshold value

/-- **The asterisks can be checked from the text.**  In each field of a format that shows a list, the
    body agrees with the values that it shows.  Values that are printed alike are marked alike, and what
    is printed as the limit is marked. -/
theorem Outcome.fields_agree (outcome : Outcome) (hthreshold : format.threshold = some threshold)
    (hlayout : format.layout ≠ .sumOnly) :
    List.Forall₂ (fun field values => BodyAgrees threshold format.layout field.body values)
        (outcome.fields format) outcome.shown
      ∧ (∀ value other, numberText value = numberText other →
          valueText (some threshold) value = valueText (some threshold) other)
      ∧ ∀ value, numberText value = Numeral.ofInt threshold.limit.toInt →
          valueText (some threshold) value = bold (numberText value) := by
  refine ⟨?_, fun _ _ => valueText_congr threshold, fun _ => valueText_of_limit⟩
  exact (Outcome.forall₂_fields_iff (R := BodyAgrees threshold format.layout)).mpr
    fun values _ => bodyAgrees hthreshold hlayout values

/-- A value that is a little below the limit, but printed as the limit: under `>7` it is marked, and a
    value that is further below it is not. -/
theorem Outcome.fields_agree_nearly :
    (Format.mk .listOnly 20 (some ⟨7, .upward⟩)).threshold = some ⟨7, .upward⟩
      ∧ (Format.mk .listOnly 20 (some ⟨7, .upward⟩)).layout ≠ .sumOnly
      ∧ Agrees ⟨7, .upward⟩ (Decimal.toBinary64 false ⟨69999999999, -10⟩) "**7**".toList
      ∧ Agrees ⟨7, .upward⟩ (Decimal.toBinary64 false ⟨69, -1⟩) "6.9".toList := by
  have hlayout : (Format.mk .listOnly 20 (some ⟨7, .upward⟩)).layout ≠ .sumOnly := by decide
  have hlisted : ∀ values, List.Forall₂ (Agrees ⟨7, .upward⟩) values
      (entries (Format.body ⟨.listOnly, 20, some ⟨7, .upward⟩⟩ values)) := by
    intro values
    obtain ⟨hagree, -, -⟩ := Outcome.fields_agree ⟨"1d7".toList, values, values⟩
      (rfl : (Format.mk .listOnly 20 (some ⟨7, .upward⟩)).threshold = some ⟨7, .upward⟩) hlayout
    have hbodies := (Outcome.forall₂_fields_iff (R := BodyAgrees ⟨7, .upward⟩ .listOnly)).mp hagree
    exact (hbodies values (Outcome.final_mem_shown _)).entries
  have hentries : entries (Format.body ⟨.listOnly, 20, some ⟨7, .upward⟩⟩
      [Decimal.toBinary64 false ⟨69999999999, -10⟩, Decimal.toBinary64 false ⟨69, -1⟩])
        = ["**7**".toList, "6.9".toList] := by
    decide +kernel
  obtain ⟨hnearly, hrest⟩ := List.forall₂_cons.mp (hentries ▸ hlisted _)
  exact ⟨rfl, hlayout, hnearly, (List.forall₂_cons.mp hrest).1⟩

end DiceNotation
