/-
  Whatever is read is well formed.

  A roll that was read is canonical, whatever the text was (`Roll.isCanonical_of_read`), and so it
  can be written and read again (`Roll.read_text_of_read`).  Most of this is not checked anywhere: it
  comes from what the readers of the parts never get to see.

  1. An integer that is read from a text without a minus sign is not negative
     (`Numeral.signed?_nonneg`).  The dice clause ends at the first operator, so neither bound has a
     sign; and the one that is not written is 1 or 100.  Putting the bounds in order keeps that.
  2. The count is checked twice, once against the limit and once against zero.
  3. A minus sign in the steps is an operator, so no operand is negative; that the others are finite
     is checked where an operand is read (`Step.readAll_plain`, `Group.readAll_plain`).
  4. Splitting a text at its commas gives at least one entry, and every entry has to be a position.
     So no set of targets is empty, and being a set it is ascending (`Group.targetSet_ascending`).
  5. A directive changes the row size to a positive integer or not at all
     (`Format.withDirective_isCanonical`), so by induction no run of directives spoils it.
-/
import DiceNotation.Proofs.Dice.Clause
import DiceNotation.Proofs.Roll.ReadBack

namespace DiceNotation

open Text

/-! ## Integers without a sign -/

namespace Numeral

/-- A text without a minus sign says no negative integer. -/
theorem plain?_nonneg {s : Text} {i : Int} (hfree : s.FreeOf (· == '-')) (h : plain? s = some i) :
    0 ≤ i := by
  cases plain?_eq_some_iff.mp h with
  | zero => exact Int.le_refl 0
  | bare _ _ => exact Int.natCast_nonneg _
  | plus _ _ => exact Int.natCast_nonneg _
  | minus _ _ =>
    -- the one spelling that is negative has the sign in front
    exact absurd (freeOf_cons.mp hfree).1 (by decide)

theorem signed?_nonneg {s : Text} {x : Int64} (hfree : s.FreeOf (· == '-'))
    (h : signed? s = some x) : 0 ≤ x :=
  Int64.le_iff_toInt_le.mpr (plain?_nonneg hfree (plain?_of_signed? h))

end Numeral

/-! ## Dice -/

namespace Dice

variable {dice : Dice}

/-- **Bounds that are written without a sign are not negative**, and neither are those that are not
    written. -/
theorem bounds?_nonneg {s : Text} {a b : Int64} (hfree : s.FreeOf (· == '-'))
    (h : bounds? s = some (a, b)) : 0 ≤ a ∧ 0 ≤ b := by
  have htrim : s.trimGap.FreeOf (· == '-') := hfree.trimGap
  have hrange : (s.trimGap.onward (· == ':')).FreeOf (· == '-') := htrim.onward
  unfold bounds? at h
  simp only at h
  split at h
  · obtain ⟨rfl, rfl⟩ := Prod.mk.inj (Option.some.inj h)
    decide
  · split at h
    · obtain ⟨high, hhigh, h⟩ := Option.map_eq_some_iff.mp h
      obtain ⟨rfl, rfl⟩ := Prod.mk.inj h
      exact ⟨by decide, Numeral.signed?_nonneg htrim hhigh⟩
    · rename_i right hright
      rw [hright] at hrange
      obtain ⟨low, hlow, h⟩ := Option.bind_eq_some_iff.mp h
      obtain ⟨high, hhigh, h⟩ := Option.bind_eq_some_iff.mp h
      obtain ⟨rfl, rfl⟩ := Prod.mk.inj (Option.some.inj h)
      exact ⟨Numeral.signed?_nonneg htrim.upTo.trimGap hlow,
        Numeral.signed?_nonneg (freeOf_cons.mp hrange).2.trimGap hhigh⟩

theorem isCanonical_of_ofBounds {count : Nat} {a b : Int64} (ha : 0 ≤ a) (hb : 0 ≤ b)
    (h : ofBounds count a b = .ok dice) : dice.IsCanonical := by
  obtain ⟨⟨hpos, hle⟩, rfl, hlow, hhigh⟩ := ofBounds_eq_ok_iff.mp h
  have ha' : 0 ≤ a.toInt := Int64.le_iff_toInt_le.mp ha
  have hb' : 0 ≤ b.toInt := Int64.le_iff_toInt_le.mp hb
  have hlow' : 0 ≤ dice.low.toInt := by omega
  refine ⟨hpos, hle, Int64.le_iff_toInt_le.mpr hlow', Int64.le_iff_toInt_le.mpr ?_⟩
  omega

/-- **Dice that are read from a clause without a sign are canonical.** -/
theorem isCanonical_of_read {clause : Text} (hfree : clause.FreeOf (· == '-'))
    (h : read clause = .ok dice) : dice.IsCanonical := by
  have hrest : (clause.onward (· == 'd')).FreeOf (· == '-') := hfree.onward
  unfold read at h
  split at h
  · obtain rfl := Except.ok.inj h
    decide
  · rename_i range hrange
    rw [hrange] at hrest
    simp only at h
    split at h
    · cases h
    · split at h
      · cases h
      · rename_i a b hbounds
        obtain ⟨ha, hb⟩ := bounds?_nonneg (freeOf_cons.mp hrest).2 hbounds
        exact isCanonical_of_ofBounds ha hb h

end Dice

/-! ## Groups -/

namespace Group

variable {group : Group} {ts : List Nat}

theorem mem_insertTarget {t u : Nat} : u ∈ insertTarget t ts ↔ u = t ∨ u ∈ ts := by
  induction ts with
  | nil => simp [insertTarget]
  | cons v vs ih =>
    unfold insertTarget
    split
    · exact List.mem_cons
    · split
      · rename_i heq
        rw [heq, List.mem_cons]
        exact ⟨Or.inr, fun h => h.elim Or.inl id⟩
      · rw [List.mem_cons, ih, List.mem_cons]
        exact or_left_comm

theorem insertTarget_ascending (t : Nat) (h : ts.Pairwise (· < ·)) :
    (insertTarget t ts).Pairwise (· < ·) := by
  induction ts with
  | nil => exact List.pairwise_singleton _ _
  | cons u us ih =>
    obtain ⟨hlt, hus⟩ := List.pairwise_cons.mp h
    unfold insertTarget
    split
    · rename_i htu
      refine List.pairwise_cons.mpr ⟨fun v hv => ?_, h⟩
      rcases List.mem_cons.mp hv with rfl | hv
      · exact htu
      · exact Nat.lt_trans htu (hlt v hv)
    · split
      · exact h
      · refine List.pairwise_cons.mpr ⟨fun v hv => ?_, ih hus⟩
        rcases mem_insertTarget.mp hv with rfl | hv
        · omega
        · exact hlt v hv

theorem mem_targetSet {t : Nat} : t ∈ targetSet ts ↔ t ∈ ts := by
  induction ts with
  | nil => exact Iff.rfl
  | cons u us ih =>
    show t ∈ insertTarget u (targetSet us) ↔ _
    rw [mem_insertTarget, ih, List.mem_cons]

/-- **A set of targets is ascending**, whatever the order in which they were written. -/
theorem targetSet_ascending (ts : List Nat) : (targetSet ts).Pairwise (· < ·) := by
  induction ts with
  | nil => exact List.Pairwise.nil
  | cons t ts ih => exact insertTarget_ascending t ih

theorem target?_bounds {entry : Text} {t : Nat} (h : target? entry = some t) :
    1 ≤ t ∧ t < 2 ^ 64 := by
  obtain ⟨-, hrange⟩ := Option.filter_eq_some_iff.mp h
  rw [Bool.and_eq_true, decide_eq_true_iff, decide_eq_true_iff] at hrange
  exact hrange

/-- **Targets that are read are a set of positions, and not empty.**  There is an entry even in the
    empty text. -/
theorem readTargets_isCanonical {s : Text} (h : readTargets s = .ok ts) :
    ts ≠ [] ∧ ts.Pairwise (· < ·) ∧ ∀ t ∈ ts, 1 ≤ t ∧ t < 2 ^ 64 := by
  obtain ⟨targets, hentries, h⟩ := bind_eq_ok.mp h
  obtain rfl : targetSet targets = ts := Except.ok.inj h
  refine ⟨?_, targetSet_ascending targets, fun t ht => ?_⟩
  · unfold Text.split at hentries
    rw [List.mapM_cons] at hentries
    obtain ⟨first, -, hentries⟩ := bind_eq_ok.mp hentries
    obtain ⟨others, -, hentries⟩ := bind_eq_ok.mp hentries
    obtain rfl : first :: others = targets := Except.ok.inj hentries
    exact List.ne_nil_of_mem (mem_targetSet.mpr List.mem_cons_self)
  · obtain ⟨entry, -, hentry⟩ := exists_of_mem_mapM hentries (mem_targetSet.mp ht)
    split at hentry
    · rename_i u hu
      obtain rfl := Except.ok.inj hentry
      exact target?_bounds hu
    · cases hentry

theorem isCanonical_of_read {piece : Text} (h : read piece = .ok group) : group.IsCanonical := by
  obtain ⟨targets, htargets, h⟩ := bind_eq_ok.mp h
  obtain ⟨steps, hsteps, h⟩ := bind_eq_ok.mp h
  obtain rfl : ⟨targets, steps⟩ = group := Except.ok.inj h
  obtain ⟨hsome, hasc, hpos⟩ := readTargets_isCanonical htargets
  exact ⟨hsome, hasc, hpos, Step.scan_plain hsteps⟩

theorem isCanonical_of_readAll {s : Text} {groups : List Group} (h : readAll s = .ok groups) :
    ∀ group ∈ groups, group.IsCanonical := by
  intro group hgroup
  obtain ⟨piece, -, hread⟩ := exists_of_mem_mapM h hgroup
  exact isCanonical_of_read hread

end Group

/-! ## Formats -/

namespace Format

variable {format after : Format}

theorem withThreshold_isCanonical {directive : Directive} {side : Side} {argument : Text}
    (hformat : format.IsCanonical)
    (h : format.withThreshold directive side argument = .ok after) : after.IsCanonical := by
  unfold withThreshold at h
  split at h
  · cases h
  · split at h
    · obtain rfl := Except.ok.inj h
      exact ⟨hformat.rowSize_pos, hformat.rowSize_le⟩
    · cases h

/-- **A directive leaves a format canonical**, one case for each directive. -/
theorem withDirective_isCanonical {directive : Directive} {argument : Text}
    (hformat : format.IsCanonical) (h : format.withDirective directive argument = .ok after) :
    after.IsCanonical := by
  cases directive with
  | sum =>
    obtain rfl := Except.ok.inj h
    exact ⟨hformat.rowSize_pos, hformat.rowSize_le⟩
  | greater => exact withThreshold_isCanonical hformat h
  | less => exact withThreshold_isCanonical hformat h
  | list =>
    simp only [withDirective] at h
    split at h
    · obtain rfl := Except.ok.inj h
      exact ⟨hformat.rowSize_pos, hformat.rowSize_le⟩
    · split at h
      · rename_i size hsize
        obtain rfl := Except.ok.inj h
        obtain ⟨-, hpos⟩ := Option.filter_eq_some_iff.mp hsize
        have hpos : (0 : Int) < size.toInt := Int64.lt_iff_toInt_lt.mp (of_decide_eq_true hpos)
        have hle := size.toInt_le
        constructor
        · show 1 ≤ size.toInt.toNat
          omega
        · show (size.toInt.toNat : Int) ≤ Int64.maxValue.toInt
          rw [Int.toNat_of_nonneg (Int.le_of_lt hpos)]
          exact hle
      · cases h

/-- Any run of directives does. -/
theorem isCanonical_of_ofDirectives {directives : List (Directive × Text)}
    (h : ofDirectives directives = .ok format) : format.IsCanonical := by
  have hrun : ∀ start : Format, start.IsCanonical →
      directives.foldlM (fun format x => format.withDirective x.1 x.2.trim) start = .ok format →
      format.IsCanonical := by
    clear h
    induction directives with
    | nil =>
      intro start hstart h
      obtain rfl : start = format := Except.ok.inj h
      exact hstart
    | cons x directives ih =>
      intro start hstart h
      rw [List.foldlM_cons] at h
      obtain ⟨next, hnext, h⟩ := bind_eq_ok.mp h
      exact ih next (withDirective_isCanonical hstart hnext) h
  exact hrun plain (by decide) h

theorem isCanonical_of_read {s core : Text} (h : read s = .ok (core, format)) :
    format.IsCanonical := by
  rw [read_eq] at h
  obtain ⟨_, hdirectives, h⟩ := map_eq_ok.mp h
  obtain ⟨-, rfl⟩ := Prod.mk.inj h
  exact isCanonical_of_ofDirectives hdirectives

end Format

/-! ## Rolls -/

namespace Roll

variable {roll : Roll} {s : Text}

/-- **A roll that was read is canonical.** -/
theorem isCanonical_of_read (h : read s = .ok roll) : roll.IsCanonical := by
  obtain ⟨-, core, hformat, hdice, hsteps, hgroups⟩ := read_eq_ok h
  -- the dice clause stops at the first operator, and a minus sign is one
  have hclause : (parts core).1.FreeOf (· == '-') := by
    refine (freeOf_upTo endsDice core).mono fun c hc => ?_
    rw [beq_iff_eq.mp hc]
    rfl
  exact ⟨Dice.isCanonical_of_read hclause hdice, Step.readAll_plain hsteps,
    Group.isCanonical_of_readAll hgroups, Format.isCanonical_of_read hformat⟩

/-- **What was read can be written and read again**, with the same dice, steps and groups. -/
theorem read_text_of_read (h : read s = .ok roll) :
    read roll.text = .ok ⟨roll.text, roll.dice, roll.steps, roll.groups, roll.format.written⟩ :=
  read_text (isCanonical_of_read h)

/-- **Every roll that is read is well formed**, whatever the text: the count is within its limits,
    the bounds are in order and not negative, every operand is finite with a clear sign, every group
    has a target and every target is a position, rows have a size, and the source is the text. -/
theorem read_wellFormed (h : read s = .ok roll) :
    (1 ≤ roll.dice.count ∧ roll.dice.count ≤ 10000) ∧
    (0 ≤ roll.dice.low ∧ roll.dice.low ≤ roll.dice.high) ∧
    (∀ step ∈ roll.steps, step.operand.isFinite = true ∧ step.operand.isNegative = false) ∧
    (∀ group ∈ roll.groups,
      (group.targets ≠ [] ∧ group.targets.Pairwise (· < ·) ∧
        ∀ t ∈ group.targets, 1 ≤ t ∧ t < 2 ^ 64) ∧
      ∀ step ∈ group.steps, step.operand.isFinite = true ∧ step.operand.isNegative = false) ∧
    (1 ≤ roll.format.rowSize ∧ (roll.format.rowSize : Int) ≤ Int64.maxValue.toInt) ∧
    roll.source = s := by
  have hroll := isCanonical_of_read h
  refine ⟨⟨hroll.dice.count_pos, hroll.dice.count_le⟩, ⟨hroll.dice.low_nonneg,
    hroll.dice.low_le_high⟩, hroll.plain, fun group hgroup => ?_,
    ⟨hroll.format.rowSize_pos, hroll.format.rowSize_le⟩, (read_eq_ok h).1⟩
  have hcanonical := hroll.groups group hgroup
  exact ⟨⟨hcanonical.some_target, hcanonical.ascending, hcanonical.positions⟩, hcanonical.plain⟩

/-- Bounds the wrong way round, an operand with an exponent beside one that starts with its point,
    targets out of order and repeated, a group without steps, and a negative limit. -/
theorem read_wellFormed_disorder :
    let text : Text := "007d9:2+1E22*.5i3,01,3/7;2:l5>-4".toList
    ∃ roll, read text = .ok roll ∧ roll.dice = ⟨7, 2, 9⟩ ∧
      roll.groups.map (·.targets) = [[1, 3], [2]] ∧
      (∀ step ∈ roll.steps, step.operand.isFinite = true ∧ step.operand.isNegative = false) ∧
      roll.source = text := by
  intro text
  have hread : read text = .ok ⟨text, ⟨7, 2, 9⟩,
      [⟨.add, Decimal.toBinary64 false ⟨1, 22⟩⟩, ⟨.multiply, Decimal.toBinary64 false ⟨5, -1⟩⟩],
      [⟨[1, 3], [⟨.divide, 7⟩]⟩, ⟨[2], []⟩], ⟨.rows, 5, some ⟨-4, .upward⟩⟩⟩ := by decide +kernel
  obtain ⟨-, -, hplain, -, -, hsource⟩ := read_wellFormed hread
  exact ⟨_, hread, rfl, rfl, hplain, hsource⟩

/-- The other texts that float readers know, and signs in exponents, are no operands. -/
example : ["d6+nan", "d6*INF", "d6-1e400", "d6i1:*1e+5", "d6i1:/1e-5"].filter
    (fun s => (read s.toList).toOption.isSome) = [] := by decide +kernel

end Roll

end DiceNotation
