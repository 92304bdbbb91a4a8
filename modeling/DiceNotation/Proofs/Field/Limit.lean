/-
  Fields that fit a limit.

  `Outcome.fieldsWithin` shows the sum when a body is too long, and never looks whether the sum fits.
  It does (`fieldsWithin_delivers`), for every limit from 310 on, which is the length of the largest
  number below zero.

  1. What the fields of an outcome say is one list of lists (`shown`): the final values, and the
     fallen ones if they differ.  The titles do not depend on the format (`titles_fields`), and each
     body is the body of one of the lists (`bodies_fields`).
  2. A field of the sum format has the sum as its body and no threshold, so it is as long as a
     number (`length_sumText_le`).
-/
import Mathlib.Data.List.Forall2
import DiceNotation.Proofs.Field.Settle

namespace DiceNotation

open Text

/-! ## What the fields say -/

theorem Field.fits_iff (field : Field) (limit : Nat) :
    field.fits limit = true ↔ field.body.length ≤ limit :=
  decide_eq_true_iff

theorem Format.body_sumOnly (values : List Binary64) : sumOnly.body values = sumText values :=
  rfl

namespace Outcome

variable {limit : Nat} {format : Format}

/-- The values that the fields show, field by field. -/
def shown (outcome : Outcome) : List (List Binary64) :=
  if outcome.isModified then [outcome.final, outcome.fallen] else [outcome.final]

theorem final_mem_shown (outcome : Outcome) : outcome.final ∈ outcome.shown := by
  unfold shown
  split
  · exact List.mem_cons_self
  · exact List.mem_cons_self

theorem bodies_fields (outcome : Outcome) (format : Format) :
    (outcome.fields format).map Field.body = outcome.shown.map format.body := by
  simp only [fields, shown]
  split
  · rfl
  · rfl

/-- What holds of the fields and the values in them is said of the bodies of the values. -/
theorem forall₂_fields_iff {outcome : Outcome} {R : Text → List Binary64 → Prop} :
    List.Forall₂ (fun field values => R field.body values) (outcome.fields format) outcome.shown ↔
      ∀ values ∈ outcome.shown, R (format.body values) values := by
  rw [← List.forall₂_map_left_iff, bodies_fields, List.forall₂_map_left_iff, List.forall₂_same]

/-- A title names the expression and not the format. -/
theorem titles_fields (outcome : Outcome) (format format' : Format) :
    (outcome.fields format).map Field.title = (outcome.fields format').map Field.title := by
  simp only [fields]
  split
  · rfl
  · rfl

/-- The sum fits wherever a number fits. -/
theorem length_body_sumOnly_le (outcome : Outcome) {field : Field}
    (h : field ∈ outcome.fields .sumOnly) : field.body.length ≤ 310 := by
  have hbody : field.body ∈ outcome.shown.map Format.sumOnly.body := by
    rw [← bodies_fields]
    exact List.mem_map_of_mem h
  obtain ⟨values, -, hvalues⟩ := List.mem_map.mp hbody
  rw [← hvalues, Format.body_sumOnly]
  exact length_sumText_le values

/-! ## The limit -/

/-- Either every body fits and is shown, or some body does not and the sums are shown. -/
theorem fieldsWithin_cases (outcome : Outcome) (format : Format) (limit : Nat) :
    ((∀ field ∈ outcome.fields format, field.body.length ≤ limit)
        ∧ outcome.fieldsWithin format limit = ⟨outcome.fields format, false⟩)
      ∨ ((∃ field ∈ outcome.fields format, limit < field.body.length)
        ∧ outcome.fieldsWithin format limit = ⟨outcome.fields .sumOnly, true⟩) := by
  unfold fieldsWithin
  simp only
  split
  · rename_i hall
    left
    refine ⟨fun field hfield => ?_, rfl⟩
    exact (field.fits_iff limit).mp (List.all_eq_true.mp hall field hfield)
  · rename_i hnot
    right
    refine ⟨?_, rfl⟩
    rw [List.all_eq_true] at hnot
    obtain ⟨field, hfield⟩ := Classical.not_forall.mp hnot
    obtain ⟨hmem, hlong⟩ := Classical.not_imp.mp hfield
    rw [field.fits_iff] at hlong
    exact ⟨field, hmem, Nat.lt_of_not_le hlong⟩

/-- **The limit is always kept.**  Whatever the values are and however they are asked for, no body
    is longer than a limit of at least 310; the sum is shown just if the format asked for a body
    that is too long, under the same titles, and otherwise nothing has changed. -/
theorem fieldsWithin_delivers (outcome : Outcome) (format : Format) {limit : Nat}
    (hlimit : 310 ≤ limit) :
    (∀ field ∈ (outcome.fieldsWithin format limit).fields, field.body.length ≤ limit)
      ∧ ((outcome.fieldsWithin format limit).fellBack = true
          ↔ ∃ field ∈ outcome.fields format, limit < field.body.length)
      ∧ ((outcome.fieldsWithin format limit).fellBack = true →
          (outcome.fieldsWithin format limit).fields.map Field.title
              = (outcome.fields format).map Field.title
            ∧ (outcome.fieldsWithin format limit).fields.map Field.body
              = outcome.shown.map sumText)
      ∧ ((outcome.fieldsWithin format limit).fellBack = false →
          (outcome.fieldsWithin format limit).fields = outcome.fields format) := by
  rcases fieldsWithin_cases outcome format limit with ⟨hfit, heq⟩ | ⟨hlong, heq⟩
  · rw [heq]
    refine ⟨hfit, ?_, ?_, fun _ => rfl⟩
    · constructor
      · intro h
        exact nomatch h
      · rintro ⟨field, hfield, hlong⟩
        have := hfit field hfield
        omega
    · intro h
      exact nomatch h
  · rw [heq]
    refine ⟨?_, ?_, ?_, ?_⟩
    · intro field hfield
      exact Nat.le_trans (length_body_sumOnly_le outcome hfield) hlimit
    · exact ⟨fun _ => hlong, fun _ => rfl⟩
    · intro _
      exact ⟨titles_fields outcome .sumOnly format, bodies_fields outcome .sumOnly⟩
    · intro h
      exact nomatch h

/-- The lowest number beside a zero: with both of them the body is too long, and the sum that takes
    its place has just the 310 characters that the limit allows. -/
theorem fieldsWithin_delivers_lowest :
    310 ≤ 310
      ∧ ((Outcome.mk "2d1".toList [.lowest, 0] [1, 1]).fieldsWithin .plain 310).fellBack = true
      ∧ (∀ field ∈ ((Outcome.mk "2d1".toList [.lowest, 0] [1, 1]).fieldsWithin .plain 310).fields,
          field.body.length ≤ 310)
      ∧ ((Outcome.mk "2d1".toList [.lowest, 0] [1, 1]).fieldsWithin .plain 310).fields.map Field.body
        = [sumText [.lowest, 0], ['2']] := by
  obtain ⟨hfit, -, hfell, -⟩ := fieldsWithin_delivers ⟨"2d1".toList, [.lowest, 0], [1, 1]⟩ .plain
    (Nat.le_refl 310)
  have hback : ((Outcome.mk "2d1".toList [.lowest, 0] [1, 1]).fieldsWithin .plain 310).fellBack
      = true := by
    decide +kernel
  refine ⟨Nat.le_refl 310, hback, hfit, (hfell hback).2.trans ?_⟩
  decide +kernel

end Outcome

end DiceNotation
