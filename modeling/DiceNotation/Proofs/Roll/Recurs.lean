/-
  Faults that come again.

  A fault quotes the text that broke a rule.  Put back alone where it was found, that text should break
  the same rule again; otherwise the sentence calls a number invalid that is none.

  1. Steps are trimmed before they are looked at, so it is the quoted text that has been refused, and it
     is refused again wherever it stands (`Step.scan_of_refused`).
  2. The bounds of dice and the entries of a target list are looked at as they stand and are trimmed for
     the quotation only.  What is trimmed are blanks of every kind, and the reader steps over spaces and
     tabs.  Where there is no other blank, the reader sees in the quotation what it has seen in the text
     (`Dice.bounds?_trim`, `Group.target?_trim`), and the fault comes again.
  3. A blank of another kind is what the text is refused for, and the quotation has lost it.  So the fault
     comes again just if the quotation is at fault by itself (`Fault.recurs`), and there are faults that
     quote nothing wrong (`Fault.recurs_not`).
-/
import DiceNotation.Proofs.Roll.Gaps
import DiceNotation.Proofs.Roll.Quotes
import DiceNotation.Proofs.Step.FlatScan

namespace DiceNotation

open Text

variable {s t piece clause entry : Text} {fault : Fault} {p q : Char → Bool}

/-! ## Parts and trimmed texts -/

namespace Text

theorem FreeOf.of_isInfix (h : FreeOf p s) (hpart : t <:+: s) : FreeOf p t :=
  fun c hc => h c (hpart.subset hc)

/-- No blanks but gaps. -/
def HasOnlyGaps (s : Text) : Prop :=
  ∀ c ∈ s, isBlank c = true → isGap c = true

instance (s : Text) : Decidable (HasOnlyGaps s) :=
  List.decidableBAll (fun c => isBlank c = true → isGap c = true) s

theorem HasOnlyGaps.of_isInfix (h : HasOnlyGaps s) (hpart : t <:+: s) : HasOnlyGaps t :=
  fun c hc => h c (hpart.subset hc)

/-- Where blanks are gaps, a text is the trimmed one with gaps in front and then gaps behind. -/
theorem exists_spaced_trim (h : HasOnlyGaps s) : ∃ t, Spaced p q s.trim t ∧ Spaced p q t s := by
  obtain ⟨before, after, hwhole, hbefore, hafter⟩ := exists_trim s
  have hfront : ∀ c ∈ before, isGap c = true := by
    intro c hc
    refine h c ?_ (List.all_eq_true.mp hbefore c hc)
    rw [hwhole]
    exact List.mem_append_left _ hc
  have hback : ∀ c ∈ after, isGap c = true := by
    intro c hc
    refine h c ?_ (List.all_eq_true.mp hafter c hc)
    rw [hwhole]
    exact List.mem_append_right _ (List.mem_append_right _ hc)
  refine ⟨before ++ s.trim, ⟨[], before, s.trim, rfl, rfl, hfront, Or.inl endsWith_nil⟩,
    ⟨before ++ s.trim, after, [], (List.append_nil _).symm, ?_, hback, Or.inr opensWith_nil⟩⟩
  rw [List.append_nil, List.append_assoc, ← hwhole]

end Text

/-! ## Bounds -/

namespace Dice

theorem bounds?_trim (h : HasOnlyGaps s) : bounds? s.trim = bounds? s := by
  obtain ⟨t, hfront, hback⟩ := exists_spaced_trim h
  rw [bounds?_spaced hfront, bounds?_spaced hback]

/-- A bad number of a clause is what stands behind its first `d`, and says no bounds there. -/
theorem bad_of_read (h : read clause = .error (.badNumber t)) :
    ∃ right : Text, right <:+: clause ∧ t = right.trim ∧ bounds? right = none := by
  cases (read_iff_means clause _).mp h with
  | @malformed left right n _ _ _ hnone =>
    exact ⟨right, ((List.suffix_cons 'd' right).trans (List.suffix_append left _)).isInfix, rfl,
      bounds?_eq_none_iff.mpr hnone⟩

/-- A clause that begins with its `d` means one die. -/
theorem read_d (right : Text) : read ('d' :: right) = match bounds? right with
    | none => .error (.badNumber right.trim)
    | some (a, b) => ofBounds 1 a b :=
  read_append_d freeOf_nil

/-- **The fault of a clause comes again just if its quotation says no bounds.** -/
theorem read_again_iff (h : read clause = .error (.badNumber t)) :
    read ('d' :: t) = .error (.badNumber t) ↔ bounds? t = none := by
  obtain ⟨right, -, rfl, -⟩ := bad_of_read h
  rw [read_d]
  cases bounds? right.trim with
  | none => rw [trim_trim]; exact ⟨fun _ => rfl, fun _ => rfl⟩
  | some bounds =>
    constructor
    · intro hfault
      obtain ⟨dice, hmade⟩ : ∃ dice, ofBounds 1 bounds.1 bounds.2 = .ok dice :=
        ⟨_, ofBounds_of_count (Nat.le_refl 1) (by decide)⟩
      exact nomatch hmade.symm.trans hfault
    · intro hnone
      cases hnone

theorem read_again (h : read clause = .error (.badNumber t)) (hgaps : HasOnlyGaps clause) :
    read ('d' :: t) = .error (.badNumber t) := by
  refine (read_again_iff h).mpr ?_
  obtain ⟨right, hright, rfl, hnone⟩ := bad_of_read h
  rw [bounds?_trim (hgaps.of_isInfix hright), hnone]

end Dice

/-! ## Steps -/

namespace Step

variable {rule : Dangling} {leading : Operator}

/-- A text that is quoted because it is no operand, or because it has none behind its operator. -/
inductive Refused (rule : Dangling) : Text → Prop
  | malformed {piece : Text} (hfree : piece.FreeOf Operator.isSigil)
      (hsome : piece.isAllBlank = false) (h : operand? piece.trim = none) : Refused rule piece.trim
  | dangling {operator : Operator} {piece : Text} (hfree : piece.FreeOf Operator.isSigil)
      (hrule : rule = .refused) (hblank : piece.isAllBlank = true) :
      Refused rule (operator.sigil :: piece)

/-- The fault of a run quotes a text that is refused. -/
theorem refused_of_runMeans {operator : Option Operator} (hfree : piece.FreeOf Operator.isSigil)
    (h : RunMeans rule leading (operator, piece) (.error fault)) :
    ∃ t, fault = .badNumber t ∧ Refused rule t := by
  cases h with
  | malformed hsome h => exact ⟨_, rfl, .malformed hfree hsome h⟩
  | refused hrule hblank => exact ⟨_, rfl, .dangling hfree hrule hblank⟩

/-- The fault of a scan quotes a text that is refused, and that the scan has come across. -/
theorem refused_of_scan (h : scan rule leading s = .error fault) :
    ∃ t, fault = .badNumber t ∧ Refused rule t ∧ t <:+: s.upTo (· == targetSigil) := by
  have hmeans := scan_iff_means.mp h
  obtain ⟨operator, piece, hfree, -, hfault⟩ := exists_run_of_means hmeans
  obtain ⟨t, rfl, hrefused⟩ := refused_of_runMeans hfree hfault
  cases quoted_of_means hmeans with
  | badNumber hpart => exact ⟨t, rfl, hrefused, hpart⟩

/-- **What is refused is refused again**, whatever stands in front of it. -/
theorem scan_of_refused (h : Refused rule t) (hfree : t.FreeOf (· == targetSigil)) :
    scan rule leading t = .error (.badNumber t) := by
  have hwhole : t.upTo (· == targetSigil) = t := upTo_of_freeOf hfree
  cases h with
  | malformed hpiece hsome hnone =>
    rw [scan_of_freeOf hpiece.trim, hwhole, close_of_not_isAllBlank (isAllBlank_trim hsome), trim_trim,
      hnone]
  | @dangling operator piece hpiece hrule hblank =>
    have hcut : Text.cut Operator.ofSigil? (operator.sigil :: piece) = ([], [(operator, piece)]) := by
      rw [cut_cons_of_some (Operator.ofSigil?_eq_some_iff.mpr rfl), cut_of_freeOf hpiece]
    have hstart : close rule leading true [] = .ok [] := by
      rw [close_of_isAllBlank rfl]
      exact if_neg fun hasked => Bool.false_ne_true hasked.2
    have hrun : close rule operator false piece = .error (.badNumber (operator.sigil :: piece)) := by
      rw [close_of_isAllBlank hblank]
      exact if_pos ⟨hrule, rfl⟩
    rw [scan_eq_closeAll, hwhole, hcut, closeAll]
    simp only [hstart, List.mapM_cons, hrun]
    rfl

/-- **The fault of the steps for every die comes again.** -/
theorem readAll_again (h : readAll s = .error (.badNumber t)) : readAll t = .error (.badNumber t) := by
  unfold readAll at h
  rcases bind_eq_error.mp h with hpieces | ⟨steps, -, hread⟩
  · obtain ⟨⟨operator, piece⟩, -, hscan⟩ := exists_of_mapM_eq_error hpieces
    obtain ⟨_, heq, hrefused, hpart⟩ := refused_of_scan hscan
    obtain rfl := Fault.badNumber.inj heq
    have hfree : t.FreeOf (· == targetSigil) := (freeOf_upTo _ _).of_isInfix hpart
    -- without an `i` it is one scan
    rw [readAll_clip, clip_of_freeOf hfree, scan_of_refused hrefused hfree]
  · cases hread

end Step

/-! ## Groups -/

namespace Group

variable {targets steps : Text}

theorem target?_trim (h : HasOnlyGaps s) : target? s.trim = target? s := by
  obtain ⟨t, hfront, hback⟩ := exists_spaced_trim h
  rw [target?_spaced hfront, target?_spaced hback]

/-- One group behind an `i` is read on its own. -/
theorem readAll_targetSigil (hfree : piece.FreeOf isGroupDelimiter)
    (hsome : piece.isAllBlank = false) :
    readAll (targetSigil :: piece) = (read piece).map fun group => [group] := by
  have hkeep : ([[], piece] : List Text).filter (fun piece => !piece.isAllBlank) = [piece] := by
    rw [List.filter_cons_of_neg (by decide), List.filter_cons_of_pos (by rw [hsome]; rfl)]
    rfl
  unfold readAll
  rw [split_targetSigil, split_of_freeOf hfree, hkeep, List.mapM_cons, List.mapM_nil]
  cases read piece with
  | error fault => rfl
  | ok group => rfl

/-- A target list of one entry. -/
theorem readTargets_of_freeOf (hfree : FreeOf (· == ',') entry) :
    readTargets entry = (readTarget entry).map fun t => [t] := by
  rw [readTargets_eq, split_of_freeOf hfree, List.mapM_cons, List.mapM_nil]
  cases readTarget entry with
  | error fault => rfl
  | ok t => rfl

theorem isAllBlank_append_colon (front back : Text) : isAllBlank (front ++ ':' :: back) = false := by
  apply Bool.eq_false_iff.mpr
  intro hblank
  have hcolon := List.all_eq_true.mp hblank ':' (List.mem_append_right _ List.mem_cons_self)
  exact absurd hcolon (by decide)

/-- A group with targets and steps around a `:`. -/
theorem readAll_around_colon (htargets : targets.FreeOf fun c => isGroupDelimiter c || c == ':')
    (hsteps : steps.FreeOf isGroupDelimiter) :
    readAll (targetSigil :: (targets ++ ':' :: steps)) = readTargets targets >>= fun ts =>
      Step.scan .refused .add steps >>= fun found => .ok [⟨ts, found⟩] := by
  have hfree : FreeOf isGroupDelimiter (targets ++ ':' :: steps) := by
    refine freeOf_append.mpr ⟨htargets.mono fun c hc => ?_, freeOf_cons.mpr ⟨by decide, hsteps⟩⟩
    rw [hc, Bool.true_or]
  have hcolon : FreeOf (· == ':') targets := by
    refine htargets.mono fun c hc => ?_
    rw [hc, Bool.or_true]
  rw [readAll_targetSigil hfree (isAllBlank_append_colon targets steps),
    read_of_parts (parts_append_colon hcolon)]
  cases readTargets targets with
  | error fault => rfl
  | ok ts =>
    cases Step.scan .refused .add steps with
    | error fault => rfl
    | ok found => rfl

/-- A bad target of some groups is an entry between separators that is no position. -/
theorem bad_of_readAll (h : readAll s = .error (.badTarget t)) :
    ∃ entry : Text, entry <:+: s ∧ t = entry.trim ∧ target? entry = none ∧
      FreeOf (· == ',') entry ∧ entry.FreeOf fun c => isGroupDelimiter c || c == ':' := by
  obtain ⟨piece, targets, steps, hpiece, hfree, hparts, hfault | hfault⟩ := exists_parts_of_readAll h
  · obtain ⟨entry, hentry, hcomma, hnone, heq⟩ := exists_entry_of_readTargets hfault
    have hinside : entry <:+: piece := hentry.trans hparts.isInfix.1
    refine ⟨entry, hinside.trans hpiece, Fault.badTarget.inj heq, hnone, hcomma, fun c hc => ?_⟩
    show (isGroupDelimiter c || c == ':') = false
    rw [hfree.of_isInfix hinside c hc, Bool.false_or]
    exact hparts.targets_freeOf.of_isInfix hentry c hc
  · obtain ⟨_, heq, -⟩ := Step.refused_of_scan hfault
    cases heq

/-- **The fault of a target list comes again just if its quotation is no position.** -/
theorem target_again_iff (h : readAll s = .error (.badTarget t)) :
    readAll (targetSigil :: (t ++ [':'])) = .error (.badTarget t) ↔ target? t = none := by
  obtain ⟨entry, -, rfl, -, hcomma, hfree⟩ := bad_of_readAll h
  rw [readAll_around_colon hfree.trim freeOf_nil, readTargets_of_freeOf hcomma.trim, readTarget]
  cases target? entry.trim with
  | none =>
    rw [trim_trim]
    exact ⟨fun _ => rfl, fun _ => rfl⟩
  | some n => exact ⟨fun hfault => (nomatch hfault), fun hnone => (nomatch hnone)⟩

theorem target_again (h : readAll s = .error (.badTarget t)) (hgaps : HasOnlyGaps s) :
    readAll (targetSigil :: (t ++ [':'])) = .error (.badTarget t) := by
  refine (target_again_iff h).mpr ?_
  obtain ⟨entry, hentry, rfl, hnone, -⟩ := bad_of_readAll h
  rw [target?_trim (hgaps.of_isInfix hentry), hnone]

/-- **The fault of the steps of a group comes again.** -/
theorem number_again (h : readAll s = .error (.badNumber t)) :
    readAll ("i1:".toList ++ t) = .error (.badNumber t) := by
  obtain ⟨piece, targets, steps, -, hfree, hparts, hfault | hfault⟩ := exists_parts_of_readAll h
  · obtain ⟨_, -, -, -, heq⟩ := exists_entry_of_readTargets hfault
    cases heq
  · obtain ⟨_, heq, hrefused, hpart⟩ := Step.refused_of_scan hfault
    obtain rfl := Fault.badNumber.inj heq
    have hsteps : t.FreeOf isGroupDelimiter :=
      (hparts.steps_freeOf hfree).upTo.of_isInfix hpart
    have hsigil : t.FreeOf (· == targetSigil) := (freeOf_upTo _ _).of_isInfix hpart
    have hone : readTargets ['1'] = .ok [1] := by decide +kernel
    show readAll (targetSigil :: (['1'] ++ ':' :: t)) = _
    rw [readAll_around_colon (by decide) hsteps, hone, Step.scan_of_refused hrefused hsigil]
    rfl

end Group

/-! ## All of it -/

/-- **Which faults come again.**  What the fault of a text quotes is put back where it was found, alone:

    1. behind a `d`.  The bad number of a clause is refused again just if it says no bounds, and it
       does so if the clause has no blanks but spaces and tabs.
    2. between an `i` and a `:`.  The bad target of some groups is refused again just if it says no
       position, and it does so if the groups have no blanks but spaces and tabs.
    3. behind `i1:`.  The bad number of some groups is always refused again.
    4. as steps for every die.  The bad number of these is always refused again. -/
theorem Fault.recurs (s t : Text) :
    (Dice.read s = .error (.badNumber t) →
      (Dice.read ('d' :: t) = .error (.badNumber t) ↔ ∀ a b, ¬ Dice.SaysBounds t a b) ∧
      (HasOnlyGaps s → Dice.read ('d' :: t) = .error (.badNumber t))) ∧
    (Group.readAll s = .error (.badTarget t) →
      (Group.readAll (targetSigil :: (t ++ [':'])) = .error (.badTarget t) ↔
        ∀ n, Numeral.SaysNumber t n → ¬ (1 ≤ n ∧ n < 2 ^ 64)) ∧
      (HasOnlyGaps s → Group.readAll (targetSigil :: (t ++ [':'])) = .error (.badTarget t))) ∧
    (Group.readAll s = .error (.badNumber t) →
      Group.readAll ("i1:".toList ++ t) = .error (.badNumber t)) ∧
    (Step.readAll s = .error (.badNumber t) → Step.readAll t = .error (.badNumber t)) := by
  refine ⟨fun h => ⟨?_, Dice.read_again h⟩, fun h => ⟨?_, Group.target_again h⟩,
    Group.number_again, Step.readAll_again⟩
  · rw [Dice.read_again_iff h, Dice.bounds?_eq_none_iff]
  · rw [Group.target_again_iff h, Group.target?_eq_none_iff]

/-- A bound with a space in it and a target of zero, with nothing but spaces and tabs around them; an
    operator without an operand; and an operand that is none, behind a blank of another kind. -/
theorem Fault.recurs_spaced :
    (HasOnlyGaps "2d 6 6\t".toList ∧
      Dice.read "2d 6 6\t".toList = .error (.badNumber "6 6".toList) ∧
      Dice.read "d6 6".toList = .error (.badNumber "6 6".toList)) ∧
    (HasOnlyGaps "i2;1, 0 :+3".toList ∧
      Group.readAll "i2;1, 0 :+3".toList = .error (.badTarget ['0']) ∧
      Group.readAll "i0:".toList = .error (.badTarget ['0'])) ∧
    (Group.readAll "i2:+3* i7".toList = .error (.badNumber "* ".toList) ∧
      Group.readAll "i1:* ".toList = .error (.badNumber "* ".toList)) ∧
    (Step.readAll "+3*\u00a0x -1".toList = .error (.badNumber ['x']) ∧
      Step.readAll ['x'] = .error (.badNumber ['x'])) := by
  have hclause : HasOnlyGaps "2d 6 6\t".toList := by decide +kernel
  have hbounds : Dice.read "2d 6 6\t".toList = .error (.badNumber "6 6".toList) := by
    decide +kernel
  have hspaced : HasOnlyGaps "i2;1, 0 :+3".toList := by decide +kernel
  have hzero : Group.readAll "i2;1, 0 :+3".toList = .error (.badTarget ['0']) := by decide +kernel
  have hdangling : Group.readAll "i2:+3* i7".toList = .error (.badNumber "* ".toList) := by
    decide +kernel
  have hoperand : Step.readAll "+3*\u00a0x -1".toList = .error (.badNumber ['x']) := by
    decide +kernel
  obtain ⟨hdice, -⟩ := Fault.recurs "2d 6 6\t".toList "6 6".toList
  obtain ⟨-, htargets, -⟩ := Fault.recurs "i2;1, 0 :+3".toList ['0']
  obtain ⟨-, -, hgroups, -⟩ := Fault.recurs "i2:+3* i7".toList "* ".toList
  obtain ⟨-, -, -, hsteps⟩ := Fault.recurs "+3*\u00a0x -1".toList ['x']
  exact ⟨⟨hclause, hbounds, (hdice hbounds).2 hclause⟩,
    ⟨hspaced, hzero, (htargets hzero).2 hspaced⟩, ⟨hdangling, hgroups hdangling⟩,
    ⟨hoperand, hsteps hoperand⟩⟩

/-- **A fault can quote a valid number, and a valid position.**  The blank is a no-break space: it is
    trimmed in the quotation, and no reader steps over it. -/
theorem Fault.recurs_not :
    (Dice.read "d\u00a06".toList = .error (.badNumber ['6']) ∧
      Dice.read "d6".toList = .ok ⟨1, 1, 6⟩) ∧
    (Group.readAll "i\u00a01:".toList = .error (.badTarget ['1']) ∧
      Group.readAll "i1:".toList = .ok [⟨[1], []⟩]) := by
  decide +kernel

end DiceNotation
