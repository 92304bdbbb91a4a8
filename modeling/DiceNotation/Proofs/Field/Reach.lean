/-
  What reaches a limit, and what is marked.

  A limit is an integer of 64 bits, and so it is compared only after it has been rounded.  This file
  says what that does to values that are integers themselves, of whatever size.

  1. Rounding keeps the order.  So a value that reaches the limit reaches the rounded limit as well, and
     a value that reaches only the rounded one IS the rounded one: there is no other value between them
     (`ofInt_atMost_iff`, `atMost_ofInt_iff`).
  2. Hence at most one integer is marked that does not reach the limit, and it is marked just if the
     limit is rounded to the side where the others are not (`Threshold.marks_exact`).
  3. That there are fields, layouts and entries does not matter to any of this (`marksJust_iff`).

  Limits up to 2^53 are not rounded, and marking is exact.  Beyond it a value one below the limit can be
  marked (`Threshold.marks_exact_missed`).
-/
import DiceNotation.Proofs.Field.Highlight

namespace DiceNotation

open Text Binary64

variable {value : Binary64} {threshold : Threshold} {format : Format} {i j : Int}

/-! ## Integers compared with a rounded integer -/

namespace Binary64

/-- Two values that are integers have the same place just if they are the same integer. -/
theorem eq_of_rank?_eq (hi : value.toInt? = some i) {other : Binary64} (hj : other.toInt? = some j)
    (h : value.rank? = other.rank?) : i = j := by
  rw [rank?_of_toInt? hi, rank?_of_toInt? hj, Option.some_inj] at h
  exact Int.eq_of_mul_eq_mul_right (Int.natCast_ne_zero.mpr (Nat.ne_of_gt Decimal.grainsPerOne_pos)) h

/-- The rounded integer is not apart from the integer itself. -/
theorem rank?_of_eq_rounded (hj : j.natAbs ≤ 2 ^ 64) (hi : value.toInt? = some (rounded j)) :
    (ofInt j).rank? = value.rank? := by
  rw [rank?_of_toInt? hi, rank?_of_toInt? (toInt?_ofInt hj)]

/-- **A value lies above a rounded integer just if it lies above the integer, or is the rounded one.** -/
theorem ofInt_atMost_iff (hj : j.natAbs ≤ 2 ^ 64) (hi : value.toInt? = some i) :
    (ofInt j).atMost value = true ↔ j ≤ i ∨ i = rounded j := by
  have hself := rank?_ofInt_of_toInt? hi
  constructor
  · intro h
    rcases Int.le_total j i with hle | hge
    · exact Or.inl hle
    · -- the value is below the integer and above the rounded one
      have hback : value.atMost (ofInt j) = true := by
        rw [← atMost_congr hself rfl]
        exact ofInt_atMost_ofInt hge
      exact Or.inr (eq_of_rank?_eq hi (toInt?_ofInt hj) (rank?_eq_of_atMost hback h))
  · rintro (hle | rfl)
    · rw [← atMost_congr rfl hself]
      exact ofInt_atMost_ofInt hle
    · rw [← atMost_congr rfl (rank?_of_eq_rounded hj hi)]
      exact ofInt_atMost_ofInt (Int.le_refl j)

/-- **A value lies below a rounded integer just if it lies below the integer, or is the rounded one.** -/
theorem atMost_ofInt_iff (hj : j.natAbs ≤ 2 ^ 64) (hi : value.toInt? = some i) :
    value.atMost (ofInt j) = true ↔ i ≤ j ∨ i = rounded j := by
  have hself := rank?_ofInt_of_toInt? hi
  constructor
  · intro h
    rcases Int.le_total i j with hle | hge
    · exact Or.inl hle
    · -- the value is above the integer and below the rounded one
      have hback : (ofInt j).atMost value = true := by
        rw [← atMost_congr rfl hself]
        exact ofInt_atMost_ofInt hge
      exact Or.inr (eq_of_rank?_eq hi (toInt?_ofInt hj) (rank?_eq_of_atMost h hback))
  · rintro (hle | rfl)
    · rw [← atMost_congr hself rfl]
      exact ofInt_atMost_ofInt hle
    · rw [← atMost_congr (rank?_of_eq_rounded hj hi) rfl]
      exact ofInt_atMost_ofInt (Int.le_refl j)

end Binary64

/-! ## Reaching a limit -/

/-- The integer is on the side of the limit that is marked, or it is the limit. -/
def Threshold.Reaches (threshold : Threshold) (i : Int) : Prop :=
  match threshold.side with
  | .upward => threshold.limit.toInt ≤ i
  | .downward => i ≤ threshold.limit.toInt

/-- **A threshold passes what reaches its limit, and its limit as it is rounded.** -/
theorem Threshold.passes_iff (h : value.toInt? = some i) :
    threshold.passes value = true ↔
      threshold.Reaches i ∨ i = rounded threshold.limit.toInt := by
  unfold Threshold.passes Threshold.Reaches
  cases threshold.side with
  | upward => exact ofInt_atMost_iff (natAbs_toInt_le _) h
  | downward => exact atMost_ofInt_iff (natAbs_toInt_le _) h

/-! ## Marking -/

/-- Of the values of a body that are integers, just those are marked of which something holds. -/
def BodyMarks (stands : Int → Prop) (body : Text) (values : List Binary64) : Prop :=
  List.Forall₂
    (fun value entry => ∀ i, value.toInt? = some i → (entry = bold (printed entry) ↔ stands i))
    values (entries body)

/-- All fields of an outcome mark just those. -/
def MarksJust (stands : Int → Prop) (format : Format) (outcome : Outcome) : Prop :=
  List.Forall₂ (fun field values => BodyMarks stands field.body values)
    (outcome.fields format) outcome.shown

theorem bodyMarks_iff {stands : Int → Prop} (hthreshold : format.threshold = some threshold)
    (hlayout : format.layout ≠ .sumOnly) (values : List Binary64) :
    BodyMarks stands (format.body values) values ↔
      ∀ value ∈ values, ∀ i, value.toInt? = some i →
        (threshold.Reaches i ∨ i = rounded threshold.limit.toInt ↔ stands i) := by
  rw [BodyMarks, entries_body hlayout, hthreshold, List.forall₂_map_right_iff, List.forall₂_same]
  apply forall₂_congr
  intro value _
  apply forall₂_congr
  intro i hint
  rw [valueText_eq_bold_iff, settle_of_toInt? hint, Threshold.passes_iff hint]

/-- **Only the values and the threshold matter**, and not where the values stand. -/
theorem marksJust_iff {stands : Int → Prop} {outcome : Outcome}
    (hthreshold : format.threshold = some threshold) (hlayout : format.layout ≠ .sumOnly) :
    MarksJust stands format outcome ↔
      ∀ values ∈ outcome.shown, ∀ value ∈ values, ∀ i, value.toInt? = some i →
        (threshold.Reaches i ∨ i = rounded threshold.limit.toInt ↔ stands i) := by
  rw [MarksJust, Outcome.forall₂_fields_iff (R := BodyMarks stands)]
  exact forall₂_congr fun values _ => bodyMarks_iff hthreshold hlayout values

/-- **How exact the marks are.**  Whatever the outcome of a roll, in a format that shows a list under a
    threshold:

    1. Of the values that are integers, just those are marked that reach the limit, and the one that is
       the limit as it is rounded.
    2. Just those that reach the limit are marked in every outcome just if the rounded limit does.
    3. For limits up to 2^53 it does. -/
theorem Threshold.marks_exact (hthreshold : format.threshold = some threshold)
    (hlayout : format.layout ≠ .sumOnly) :
    (∀ outcome, MarksJust (fun i => threshold.Reaches i ∨ i = rounded threshold.limit.toInt)
      format outcome) ∧
    ((∀ outcome, MarksJust threshold.Reaches format outcome) ↔
      threshold.Reaches (rounded threshold.limit.toInt)) ∧
    (threshold.limit.toInt.natAbs ≤ 2 ^ 53 →
      ∀ outcome, MarksJust threshold.Reaches format outcome) := by
  have hexact : (∀ outcome, MarksJust threshold.Reaches format outcome) ↔
      threshold.Reaches (rounded threshold.limit.toInt) := by
    constructor
    · intro h
      -- an outcome that has the rounded limit as its only value
      obtain hall := (marksJust_iff hthreshold hlayout).mp
        (h ⟨[], [ofInt threshold.limit.toInt], [ofInt threshold.limit.toInt]⟩)
      have hlimit := hall _ (Outcome.final_mem_shown _) _ List.mem_cons_self _
        (toInt?_ofInt (natAbs_toInt_le _))
      exact hlimit.mp (Or.inr rfl)
    · intro hreaches outcome
      refine (marksJust_iff hthreshold hlayout).mpr fun _ _ _ _ i _ => ?_
      constructor
      · rintro (hi | rfl)
        · exact hi
        · exact hreaches
      · exact Or.inl
  refine ⟨fun outcome => ?_, hexact, fun hsmall => hexact.mpr ?_⟩
  · exact (marksJust_iff hthreshold hlayout).mpr fun _ _ _ _ _ _ => Iff.rfl
  · rw [rounded_eq_self_iff.mpr (isExact_of_le hsmall)]
    unfold Threshold.Reaches
    cases threshold.side with
    | upward => exact Int.le_refl _
    | downward => exact Int.le_refl _

/-- Three limits: one that is rounded up, away from what does not reach it, so that all marks are
    exact; its neighbour, which is rounded down; and a small one. -/
theorem Threshold.marks_exact_rounded :
    let up : Threshold := ⟨9007199254740995, .upward⟩
    let down : Threshold := ⟨9007199254740993, .upward⟩
    let small : Threshold := ⟨-5, .downward⟩
    (Layout.rows ≠ .sumOnly) ∧
    (∀ outcome, MarksJust up.Reaches ⟨.rows, 5, some up⟩ outcome) ∧
    (¬ ∀ outcome, MarksJust down.Reaches ⟨.rows, 5, some down⟩ outcome) ∧
    ∀ outcome, MarksJust small.Reaches ⟨.rows, 5, some small⟩ outcome := by
  intro up down small
  have hlayout : Layout.rows ≠ .sumOnly := by decide
  obtain ⟨-, hup, -⟩ :=
    Threshold.marks_exact (rfl : (Format.mk .rows 5 (some up)).threshold = some up) hlayout
  obtain ⟨-, hdown, -⟩ :=
    Threshold.marks_exact (rfl : (Format.mk .rows 5 (some down)).threshold = some down) hlayout
  obtain ⟨-, -, hsmall⟩ :=
    Threshold.marks_exact (rfl : (Format.mk .rows 5 (some small)).threshold = some small) hlayout
  have habove : (9007199254740995 : Int) ≤ rounded 9007199254740995 := by decide +kernel
  have hbelow : ¬ (9007199254740993 : Int) ≤ rounded 9007199254740993 := by decide +kernel
  exact ⟨hlayout, hup.mpr habove, mt hdown.mp hbelow, hsmall (by decide +kernel)⟩

/-- **A value below the limit can be marked.**  At its highest the die shows 2^53; the limit is one more,
    and the value is marked nevertheless. -/
theorem Threshold.marks_exact_missed :
    let threshold : Threshold := ⟨9007199254740993, .upward⟩
    let source := "d9007199254740992>9007199254740993".toList
    let roll : Roll :=
      ⟨source, ⟨1, 1, 9007199254740992⟩, [], [], ⟨.valuesAndSum, 20, some threshold⟩⟩
    let outcome : Outcome := ⟨source, [9007199254740992], [9007199254740992]⟩
    Roll.read source = .ok roll ∧
    (roll.evaluate .highest (.ofSeed [] 0)).1 = .ok outcome ∧
    (9007199254740992 : Binary64).toInt? = some 9007199254740992 ∧
    ¬ threshold.Reaches 9007199254740992 ∧
    (outcome.fields roll.format).map Field.body = ["**9007199254740992**".toList] ∧
    ¬ MarksJust threshold.Reaches roll.format outcome := by
  intro threshold source roll outcome
  have hread : Roll.read source = .ok roll := by decide +kernel
  have hevaluate : (roll.evaluate .highest (.ofSeed [] 0)).1 = .ok outcome := by decide +kernel
  have hint : (9007199254740992 : Binary64).toInt? = some 9007199254740992 := by decide +kernel
  have hmissed : ¬ threshold.Reaches 9007199254740992 := by
    show ¬ (9007199254740993 : Int64).toInt ≤ 9007199254740992
    decide
  have hbody : (outcome.fields roll.format).map Field.body = ["**9007199254740992**".toList] := by
    decide +kernel
  refine ⟨hread, hevaluate, hint, hmissed, hbody, fun hmarks => hmissed ?_⟩
  have hall := (marksJust_iff (rfl : roll.format.threshold = some threshold)
    (by decide : Layout.valuesAndSum ≠ .sumOnly)).mp hmarks
  have hrounded : (9007199254740992 : Int) = rounded 9007199254740993 := by decide +kernel
  exact (hall _ (Outcome.final_mem_shown _) _ List.mem_cons_self _ hint).mp (Or.inr hrounded)

end DiceNotation
