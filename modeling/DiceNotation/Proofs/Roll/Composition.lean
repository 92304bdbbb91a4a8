/-
  Reading a roll is reading its four parts.

  Every text splits in exactly one way into a dice clause, the steps for every die, the targeted
  groups and a format (`exists_cut`, `IsCut.unique`).  `IsCut` says what makes four texts the parts
  of their whole, without a word about how a reader finds them: which characters each part must not
  have, and with which it opens.

  1. The readers find these parts and no others: `Format.read` sees the same directives with or
     without a core in front (`Format.read_append`), and `Roll.parts` gives back the three parts
     that were put together (`IsCut.parts_append`).
  2. So a roll is read by reading its parts, the format first, and the first fault is the fault of
     the whole (`read_append`).
  3. A core has no directive in it, and reading the core alone gives the same roll but for the
     format (`read_core`).
-/
import DiceNotation.Roll
import DiceNotation.Proofs.Reading
import DiceNotation.Proofs.Text.Cutting

namespace DiceNotation

open Text

/-! ## The format -/

/-- The format that some directives ask for, each with its argument as it stands. -/
def Format.ofDirectives (directives : List (Directive × Text)) : Except Fault Format :=
  directives.foldlM (fun format x => format.withDirective x.1 x.2.trim) plain

theorem Format.read_eq (s : Text) :
    Format.read s = (ofDirectives (s.cut Directive.ofSigil?).2).map
      fun format => (s.upTo Directive.isSigil, format) := by
  rw [show s.upTo Directive.isSigil = (s.cut Directive.ofSigil?).1 from (cut_fst _ _).symm]
  rfl

/-- **The format does not depend on what stands in front of it.** -/
theorem Format.read_append {core format : Text} (hcore : core.FreeOf Directive.isSigil)
    (hformat : format.OpensWith Directive.isSigil) :
    Format.read (core ++ format) = (Format.read format).map fun x => (core, x.2) := by
  have hcut : Text.cut Directive.ofSigil? (core ++ format)
      = (core ++ (Text.cut Directive.ofSigil? format).1, (Text.cut Directive.ofSigil? format).2) :=
    cut_append hcore
  rw [Format.read_eq, Format.read_eq, hcut, upTo_append hcore, upTo_of_opensWith hformat,
    List.append_nil]
  cases ofDirectives (Text.cut Directive.ofSigil? format).2 with
  | error fault => rfl
  | ok format => rfl

/-- What is read before the format is the text up to the first directive. -/
theorem Format.core_eq_upTo {s core : Text} {format : Format}
    (h : Format.read s = .ok (core, format)) : core = s.upTo Directive.isSigil := by
  rw [Format.read_eq] at h
  obtain ⟨_, -, h⟩ := map_eq_ok.mp h
  exact (congrArg Prod.fst h).symm

namespace Roll

/-! ## The parts of an expression -/

/-- Four texts that are the dice clause, the steps for every die, the targeted groups and the
    format of the expression that they make up together. -/
structure IsCut (dice steps groups format : Text) : Prop where
  dice_free : dice.FreeOf fun c => endsDice c || Directive.isSigil c
  steps_free : steps.FreeOf fun c => c == targetSigil || Directive.isSigil c
  steps_open : steps.OpensWith Operator.isSigil
  groups_free : groups.FreeOf Directive.isSigil
  groups_open : groups.OpensWith (· == targetSigil)
  format_open : format.OpensWith Directive.isSigil

namespace IsCut

variable {dice steps groups format : Text}

theorem core_free (h : IsCut dice steps groups format) :
    (dice ++ (steps ++ groups)).FreeOf Directive.isSigil := by
  refine freeOf_append.mpr ⟨?_, freeOf_append.mpr ⟨?_, h.groups_free⟩⟩
  · exact h.dice_free.mono fun c hc => by simp [hc]
  · exact h.steps_free.mono fun c hc => by simp [hc]

theorem rest_open (h : IsCut dice steps groups format) :
    (steps ++ groups).OpensWith endsDice := by
  intro c hc
  cases steps with
  | nil =>
    have := h.groups_open c hc
    simp only [endsDice, this, Bool.or_true]
  | cons d steps =>
    have hd := opensWith_cons.mp h.steps_open
    obtain rfl : d = c := Option.some.inj hc
    simp only [endsDice, hd, Bool.true_or]

/-- The three parts in front of the format are found again. -/
theorem parts_append (h : IsCut dice steps groups format) :
    parts (dice ++ (steps ++ groups)) = (dice, steps, groups) := by
  have hdice : dice.FreeOf endsDice := h.dice_free.mono fun c hc => by simp [hc]
  have hsteps : steps.FreeOf (· == targetSigil) := by
    refine h.steps_free.mono fun c hc => ?_
    simp only [hc, Bool.true_or]
  simp only [parts]
  rw [upTo_append hdice, onward_append hdice, upTo_of_opensWith h.rest_open,
    onward_of_opensWith h.rest_open, upTo_append hsteps, onward_append hsteps,
    upTo_of_opensWith h.groups_open, onward_of_opensWith h.groups_open, List.append_nil,
    List.append_nil]

/-- The parts are determined by the whole. -/
theorem unique {dice' steps' groups' format' : Text} (h : IsCut dice steps groups format)
    (h' : IsCut dice' steps' groups' format')
    (heq : dice ++ (steps ++ groups) ++ format = dice' ++ (steps' ++ groups') ++ format') :
    dice = dice' ∧ steps = steps' ∧ groups = groups' ∧ format = format' := by
  obtain ⟨hcore, hformat⟩ := append_inj_of_freeOf_of_opensWith h.core_free h.format_open
    h'.core_free h'.format_open heq
  have hparts := h.parts_append
  rw [hcore, h'.parts_append] at hparts
  simp only [Prod.mk.injEq] at hparts
  exact ⟨hparts.1.symm, hparts.2.1.symm, hparts.2.2.symm, hformat⟩

end IsCut

/-- The parts that `Roll.parts` finds in a core are the parts of an expression. -/
theorem isCut_parts {core format : Text} (hcore : core.FreeOf Directive.isSigil)
    (hformat : format.OpensWith Directive.isSigil) :
    IsCut (parts core).1 (parts core).2.1 (parts core).2.2 format where
  dice_free := by
    intro c hc
    have h1 := freeOf_upTo endsDice core c hc
    have h2 := hcore.upTo (p := endsDice) c hc
    simp only [h1, h2, Bool.or_false]
  steps_free := by
    intro c hc
    have h1 := freeOf_upTo (· == targetSigil) (core.onward endsDice) c hc
    have h2 := (hcore.onward (p := endsDice)).upTo (p := (· == targetSigil)) c hc
    simp only [h1, h2, Bool.or_false]
  steps_open := by
    -- the text behind the dice clause opens with an operator, or with the `i` that leaves no steps
    have hopen := opensWith_onward endsDice core
    show OpensWith Operator.isSigil (Text.upTo (· == targetSigil) (core.onward endsDice))
    cases h : core.onward endsDice with
    | nil => exact opensWith_nil
    | cons c rest =>
      rw [h] at hopen
      have hc := opensWith_cons.mp hopen
      by_cases ht : (c == targetSigil) = true
      · have hi : OpensWith (· == targetSigil) (c :: rest) := opensWith_cons.mpr ht
        rw [upTo_of_opensWith hi]
        exact opensWith_nil
      · simp only [Bool.not_eq_true] at ht
        simp only [endsDice, ht, Bool.or_false] at hc
        simp only [Text.upTo, List.takeWhile_cons, ht, Bool.not_false, if_true]
        exact opensWith_cons.mpr hc
  groups_free := hcore.onward.onward
  groups_open := opensWith_onward _ _
  format_open := hformat

theorem parts_join (core : Text) :
    (parts core).1 ++ ((parts core).2.1 ++ (parts core).2.2) = core := by
  unfold parts
  rw [upTo_append_onward, upTo_append_onward]

/-- Every text has parts. -/
theorem exists_cut (s : Text) :
    ∃ dice steps groups format, IsCut dice steps groups format ∧
      dice ++ (steps ++ groups) ++ format = s := by
  refine ⟨_, _, _, _,
    isCut_parts (freeOf_upTo Directive.isSigil s) (opensWith_onward Directive.isSigil s), ?_⟩
  rw [parts_join, upTo_append_onward]

/-! ## Reading by parts -/

/-- The roll that four parts of an expression write, read one part after another. -/
def readParts (source dice steps groups format : Text) : Except Fault Roll := do
  let (_, format) ← Format.read format
  let dice ← Dice.read dice
  let steps ← Step.readAll steps
  let groups ← Group.readAll groups
  return ⟨source, dice, steps, groups, format⟩

/-- Reading the whole is reading the parts. -/
theorem read_eq_readParts {dice steps groups format : Text}
    (h : IsCut dice steps groups format) :
    read (dice ++ (steps ++ groups) ++ format)
      = readParts (dice ++ (steps ++ groups) ++ format) dice steps groups format := by
  unfold read readParts
  rw [Format.read_append h.core_free h.format_open]
  cases Format.read format with
  | error fault => rfl
  | ok x => simp only [Except.map, bind, Except.bind, h.parts_append]

/-- What was read of a roll that was read: each part of it, from its part of the text. -/
theorem read_eq_ok {s : Text} {roll : Roll} (h : read s = .ok roll) :
    roll.source = s ∧ ∃ core, Format.read s = .ok (core, roll.format) ∧
      Dice.read (parts core).1 = .ok roll.dice ∧
      Step.readAll (parts core).2.1 = .ok roll.steps ∧
      Group.readAll (parts core).2.2 = .ok roll.groups := by
  obtain ⟨⟨core, format⟩, hformat, h⟩ := bind_eq_ok.mp h
  obtain ⟨dice, hdice, h⟩ := bind_eq_ok.mp h
  obtain ⟨steps, hsteps, h⟩ := bind_eq_ok.mp h
  obtain ⟨groups, hgroups, h⟩ := bind_eq_ok.mp h
  obtain rfl : ⟨s, dice, steps, groups, format⟩ = roll := Except.ok.inj h
  exact ⟨rfl, core, hformat, hdice, hsteps, hgroups⟩

/-- What a roll does, without the text it was read from and the format it is shown in. -/
def deeds (roll : Roll) : Dice × List Step × List Group :=
  (roll.dice, roll.steps, roll.groups)

/-- A format in the text changes nothing of what the roll does: the core alone reads to the same,
    or fails with the same fault. -/
theorem read_core {s core : Text} {format : Format} (h : Format.read s = .ok (core, format)) :
    core <+: s ∧ core.FreeOf Directive.isSigil ∧ (read s).map deeds = (read core).map deeds := by
  have hcore : core = s.upTo Directive.isSigil := Format.core_eq_upTo h
  have hfree : core.FreeOf Directive.isSigil := by
    rw [hcore]
    exact freeOf_upTo _ _
  refine ⟨?_, hfree, ?_⟩
  · rw [hcore]
    exact List.takeWhile_prefix _
  · have halone : Format.read core = .ok (core, Format.plain) := by
      have := Format.read_append hfree opensWith_nil
      rwa [List.append_nil] at this
    unfold read
    rw [h, halone]
    simp only [bind, Except.bind]
    cases Dice.read (parts core).1 with
    | error fault => rfl
    | ok dice =>
      cases Step.readAll (parts core).2.1 with
      | error fault => rfl
      | ok steps =>
        cases Group.readAll (parts core).2.2 with
        | error fault => rfl
        | ok groups => rfl

/-- **Reading is compositional.**  Every text has parts, and no others; the roll that a text writes
    is the roll that its parts write; and what stands before a format reads as if it stood alone. -/
theorem read_compositional :
    (∀ s : Text, ∃ dice steps groups format, IsCut dice steps groups format ∧
      dice ++ (steps ++ groups) ++ format = s ∧
      ∀ dice' steps' groups' format', IsCut dice' steps' groups' format' →
        dice' ++ (steps' ++ groups') ++ format' = s →
        dice' = dice ∧ steps' = steps ∧ groups' = groups ∧ format' = format) ∧
    (∀ dice steps groups format : Text, IsCut dice steps groups format →
      read (dice ++ (steps ++ groups) ++ format)
        = readParts (dice ++ (steps ++ groups) ++ format) dice steps groups format) ∧
    (∀ (s core : Text) (format : Format), Format.read s = .ok (core, format) →
      core <+: s ∧ core.FreeOf Directive.isSigil ∧
        (read s).map deeds = (read core).map deeds) := by
  refine ⟨fun s => ?_, fun _ _ _ _ h => read_eq_readParts h, fun _ _ _ h => read_core h⟩
  obtain ⟨dice, steps, groups, format, hcut, hjoin⟩ := exists_cut s
  refine ⟨dice, steps, groups, format, hcut, hjoin, ?_⟩
  intro dice' steps' groups' format' hcut' hjoin'
  exact hcut'.unique hcut (hjoin'.trans hjoin.symm)

/-- Every part of `0d6+xi0:*>` is at fault, and the format is blamed; with a limit the format is
    in order, and the dice are blamed as they are without it. -/
theorem read_compositional_blame :
    IsCut "0d6".toList "+x".toList "i0:*".toList ">".toList ∧
    read "0d6+xi0:*>".toList = .error (.missingLimit .greater) ∧
    (read "0d6+xi0:*>5".toList).map deeds = (read "0d6+xi0:*".toList).map deeds := by
  have hcut : IsCut "0d6".toList "+x".toList "i0:*".toList ">".toList := by
    constructor <;> decide
  obtain ⟨_, hwhole, hcore⟩ := read_compositional
  exact ⟨hcut, hwhole _ _ _ _ hcut,
    (hcore _ _ ⟨.valuesAndSum, 20, some ⟨5, .upward⟩⟩ rfl).2.2⟩

end Roll

end DiceNotation
