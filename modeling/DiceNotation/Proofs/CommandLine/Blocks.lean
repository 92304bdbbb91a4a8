/-
  A report is its blocks.

  A report rolls all expressions first, one after another from the same source, and shows them in a
  second pass.  Seen from outside there is one pass: each expression has a block, and the block is a
  function of the expression, the limit and the source that the expressions before it have left.

  1. What an expression takes from the source are the words of its dice, and no others
     (`rollOne_source`): the two further runs of an envelope take none, and what cannot be read has
     no dice.  So the source from which an expression is rolled is known without rolling anything
     before it to the end (`sourceAfter`).
  2. Rolling for a report and rolling for fields succeed together and show the same
     (`rollOne_of_rollFields`), because the run by chance decides the envelope.
  3. If all expressions roll, the report is a header and the blocks in order
     (`rollEach_of_allRoll`); by induction on the expressions, with the source generalized.  Blocks of
     a longer list are blocks of its parts (`blocks_append`).
  4. If one does not, the first that does not is the failure, whatever comes behind it
     (`rollEach_of_fails`).
-/
import DiceNotation.CommandLine.Report
import DiceNotation.Proofs.Evaluation.Chance
import DiceNotation.Proofs.Text.Cutting

namespace DiceNotation.CommandLine

open Text

/-! ## From expression to expression -/

/-- The source after the dice of an expression; what cannot be read has none. -/
def afterDice (source : WordSource) (expression : Text) : WordSource :=
  match Roll.read expression with
  | .ok roll => (roll.dice.fall .chance source).2
  | .error _ => source

/-- The source after the dice of some expressions. -/
def sourceAfter (source : WordSource) (expressions : List Text) : WordSource :=
  expressions.foldl afterDice source

/-- All expressions can be read and rolled, each from the source that those before it leave. -/
def AllRoll (source : WordSource) : List Text → Prop
  | [] => True
  | expression :: rest =>
    (rollFields expression source).1.isOk = true ∧ AllRoll (afterDice source expression) rest

/-- The block of an expression that is rolled from a source, and nothing if that fails. -/
def block (limit : Nat) (source : WordSource) (expression : Text) : Text :=
  match (rollOne expression source).1 with
  | .ok rolled => rolled.block limit
  | .error _ => []

/-- The blocks of some expressions, each from the source that those before it leave. -/
def blocks (limit : Nat) (source : WordSource) : List Text → List Text
  | [] => []
  | expression :: rest =>
    block limit source expression :: blocks limit (afterDice source expression) rest

instance decidableAllRoll : (source : WordSource) → (expressions : List Text) →
    Decidable (AllRoll source expressions)
  | _, [] => .isTrue trivial
  | source, expression :: rest =>
    @instDecidableAnd _ _ (inferInstanceAs (Decidable (_ = true)))
      (decidableAllRoll (afterDice source expression) rest)

variable {limit : Nat} {source : WordSource} {expression : Text}

theorem sourceAfter_append (source : WordSource) (first second : List Text) :
    sourceAfter source (first ++ second) = sourceAfter (sourceAfter source first) second :=
  List.foldl_append

theorem sourceAfter_singleton (source : WordSource) (expression : Text) :
    sourceAfter source [expression] = afterDice source expression := rfl

theorem allRoll_append {first second : List Text} :
    AllRoll source (first ++ second) ↔
      AllRoll source first ∧ AllRoll (sourceAfter source first) second := by
  induction first generalizing source with
  | nil => exact ⟨fun h => ⟨trivial, h⟩, fun h => h.2⟩
  | cons expression rest ih =>
    show _ ∧ AllRoll (afterDice source expression) (rest ++ second) ↔ (_ ∧ _) ∧ _
    rw [ih, and_assoc]
    rfl

/-- **Blocks of a longer list are the blocks of its parts.** -/
theorem blocks_append (limit : Nat) (source : WordSource) (first second : List Text) :
    blocks limit source (first ++ second)
      = blocks limit source first ++ blocks limit (sourceAfter source first) second := by
  induction first generalizing source with
  | nil => rfl
  | cons expression rest ih =>
    show _ :: blocks limit (afterDice source expression) (rest ++ second) = _
    rw [ih]
    rfl

/-- **Each block stands alone**: it is known from its expression and the source before it. -/
theorem blocks_getElem? (limit : Nat) (source : WordSource) (expressions : List Text) (k : Nat) :
    (blocks limit source expressions)[k]?
      = expressions[k]?.map (block limit (sourceAfter source (expressions.take k))) := by
  induction expressions generalizing source k with
  | nil => rfl
  | cons expression rest ih =>
    cases k with
    | zero => rfl
    | succ k =>
      rw [blocks, List.getElem?_cons_succ, List.getElem?_cons_succ, ih]
      rfl

/-! ## Rolling one expression -/

theorem afterDice_of_read {roll : Roll} (h : Roll.read expression = .ok roll) :
    afterDice source expression = (roll.dice.fall .chance source).2 := by
  unfold afterDice
  rw [h]

theorem afterDice_of_unread {fault : Fault} (h : Roll.read expression = .error fault) :
    afterDice source expression = source := by
  unfold afterDice
  rw [h]

theorem rollFields_of_read {roll : Roll} (h : Roll.read expression = .ok roll) :
    rollFields expression source =
      ((roll.evaluate .chance source).1.map (·.fields roll.format),
        (roll.evaluate .chance source).2) := by
  unfold rollFields
  rw [h]

theorem rollOne_of_read {roll : Roll} (h : Roll.read expression = .ok roll) :
    rollOne expression source =
      (match (roll.envelope source).1 with
        | .ok envelope => .ok ⟨roll, envelope⟩
        | .error fault => .error ⟨.rolling, expression, fault⟩,
        (roll.envelope source).2) := by
  unfold rollOne
  simp only [h]
  rcases roll.envelope source with ⟨fault | envelope, rest⟩
  · rfl
  · rfl

theorem rollOne_of_unread {fault : Fault} (h : Roll.read expression = .error fault) :
    rollOne expression source = (.error ⟨.reading, expression, fault⟩, source) := by
  unfold rollOne
  rw [h]

/-- **Rolling takes the words of the dice**, whether it succeeds or not. -/
theorem rollOne_source (expression : Text) (source : WordSource) :
    (rollOne expression source).2 = afterDice source expression := by
  cases h : Roll.read expression with
  | error fault => rw [rollOne_of_unread h, afterDice_of_unread h]
  | ok roll =>
    rw [rollOne_of_read h, afterDice_of_read h, Roll.envelope_source]
    rfl

/-- **What gives fields can be reported**, and its run by chance is the one that gives the fields. -/
theorem rollOne_of_rollFields (h : (rollFields expression source).1.isOk = true) :
    ∃ roll envelope, Roll.read expression = .ok roll ∧
      (roll.evaluate .chance source).1 = .ok envelope.chance ∧
      (rollFields expression source).1 = .ok (envelope.chance.fields roll.format) ∧
      (rollOne expression source).1 = .ok ⟨roll, envelope⟩ := by
  cases hread : Roll.read expression with
  | error fault =>
    rw [rollFields, hread] at h
    cases h
  | ok roll =>
    rw [rollFields_of_read hread] at h ⊢
    cases hchance : (roll.evaluate .chance source).1 with
    | error fault =>
      rw [hchance] at h
      cases h
    | ok outcome =>
      have hrun := Roll.envelope_chance roll source
      rw [hchance] at hrun
      obtain ⟨envelope, henvelope, rfl⟩ := map_eq_ok.mp hrun
      refine ⟨roll, envelope, rfl, hchance, rfl, ?_⟩
      rw [rollOne_of_read hread, henvelope]

/-- An expression that is read but does not roll fails as it does by chance alone. -/
theorem rollOne_of_fails {roll : Roll} {fault : Fault} (hread : Roll.read expression = .ok roll)
    (h : (roll.evaluate .chance source).1 = .error fault) :
    (rollOne expression source).1 = .error ⟨.rolling, expression, fault⟩ := by
  have hrun := Roll.envelope_chance roll source
  rw [h] at hrun
  rw [rollOne_of_read hread]
  cases henvelope : (roll.envelope source).1 with
  | error e =>
    rw [henvelope] at hrun
    obtain rfl : e = fault := Except.error.inj hrun
    rfl
  | ok envelope =>
    rw [henvelope] at hrun
    cases hrun

/-! ## Rolling all expressions -/

theorem rollEach_cons (expression : Text) (rest : List Text) (source : WordSource) :
    rollEach (expression :: rest) source =
      match (rollOne expression source).1 with
      | .error failure => (.error failure, afterDice source expression)
      | .ok rolled =>
        ((rollEach rest (afterDice source expression)).1.map (rolled :: ·),
          (rollEach rest (afterDice source expression)).2) := by
  rw [rollEach, ← rollOne_source]
  rcases rollOne expression source with ⟨failure | rolled, after⟩
  · rfl
  · rfl

/-- **If all expressions roll, they are all rolled**, and their blocks are the blocks. -/
theorem rollEach_of_allRoll {expressions : List Text} (h : AllRoll source expressions) :
    ∃ rolls, rollEach expressions source = (.ok rolls, sourceAfter source expressions) ∧
      ∀ limit, rolls.map (·.block limit) = blocks limit source expressions := by
  induction expressions generalizing source with
  | nil => exact ⟨[], rfl, fun _ => rfl⟩
  | cons expression rest ih =>
    obtain ⟨hfirst, hrest⟩ := h
    obtain ⟨roll, envelope, -, -, -, hone⟩ := rollOne_of_rollFields hfirst
    obtain ⟨rolls, hrolls, hblocks⟩ := ih hrest
    refine ⟨⟨roll, envelope⟩ :: rolls, ?_, fun limit => ?_⟩
    · rw [rollEach_cons, hone, hrolls]
      rfl
    · rw [List.map_cons, hblocks, blocks, block, hone]

/-- **The first expression that fails ends it all**, and what comes behind it is not looked at. -/
theorem rollEach_of_fails {before : List Text} (h : AllRoll source before) {failure : Failure}
    (hfails : (rollOne expression (sourceAfter source before)).1 = .error failure)
    (rest : List Text) :
    rollEach (before ++ expression :: rest) source
      = (.error failure, sourceAfter source (before ++ [expression])) := by
  -- what rolls in front of the failure hands on its source, and its roll is thrown away at the end
  induction before generalizing source with
  | nil =>
    rw [List.nil_append, rollEach_cons]
    have hfirst : (rollOne expression source).1 = .error failure := hfails
    rw [hfirst]
    rfl
  | cons first before ih =>
    obtain ⟨hfirst, hbefore⟩ := h
    obtain ⟨roll, envelope, -, -, -, hone⟩ := rollOne_of_rollFields hfirst
    rw [List.cons_append, rollEach_cons, hone]
    simp only [ih hbefore hfails]
    rfl

/-- Either all expressions roll, or there is a first that cannot be read or does not roll. -/
theorem allRoll_or_fails (source : WordSource) (expressions : List Text) :
    AllRoll source expressions ∨ ∃ before expression rest,
      expressions = before ++ expression :: rest ∧ AllRoll source before ∧
        ((∃ fault, Roll.read expression = .error fault) ∨
          ∃ roll fault, Roll.read expression = .ok roll ∧
            (roll.evaluate .chance (sourceAfter source before)).1 = .error fault) := by
  induction expressions generalizing source with
  | nil => exact Or.inl trivial
  | cons expression rest ih =>
    cases hread : Roll.read expression with
    | error fault => exact Or.inr ⟨[], expression, rest, rfl, trivial, Or.inl ⟨fault, hread⟩⟩
    | ok roll =>
      -- a division by zero is found by the run by chance; the envelope would find it as well
      cases hrun : (roll.evaluate .chance source).1 with
      | error fault =>
        exact Or.inr ⟨[], expression, rest, rfl, trivial, Or.inr ⟨roll, fault, hread, hrun⟩⟩
      | ok outcome =>
        have hfirst : (rollFields expression source).1.isOk = true := by
          rw [rollFields_of_read hread, hrun]
          rfl
        rcases ih (afterDice source expression) with
          hrest | ⟨before, failing, behind, rfl, hbefore, hfails⟩
        · exact Or.inl ⟨hfirst, hrest⟩
        · exact Or.inr ⟨expression :: before, failing, behind, rfl, ⟨hfirst, hbefore⟩, hfails⟩

/-! ## Showing -/

/-- What the block of an expression has to show: the fields that the expression gives from the
    source if all of them fit, and else a notice and the fields with the sum alone, of the same
    outcome. -/
def Shows (limit : Nat) (source : WordSource) (expression : Text) (shown : Text) : Prop :=
  ∃ roll outcome, Roll.read expression = .ok roll ∧
    (roll.evaluate .chance source).1 = .ok outcome ∧
    (rollFields expression source).1 = .ok (outcome.fields roll.format) ∧
    shown =
      if ∀ field ∈ outcome.fields roll.format, field.body.length ≤ limit then
        (outcome.fields roll.format).flatMap fieldBlock
      else
        expression ++
          " - Your result was too long, so the format changed to sum only.\n".toList ++
          (outcome.fields .sumOnly).flatMap fieldBlock

/-- **A block shows what the expression gives.** -/
theorem block_shows (limit : Nat) (h : (rollFields expression source).1.isOk = true) :
    Shows limit source expression (block limit source expression) := by
  obtain ⟨roll, envelope, hread, hchance, hfields, hone⟩ := rollOne_of_rollFields h
  refine ⟨roll, envelope.chance, hread, hchance, hfields, ?_⟩
  -- the notice names the text that the roll was read from
  have hsource : roll.source = expression := (Roll.read_eq_ok hread).1
  unfold block
  rw [hone]
  simp only [Rolled.block, Outcome.fieldsWithin, Field.fits, List.all_eq_true,
    decide_eq_true_iff, hsource]
  split
  · simp only [Bool.false_eq_true, if_false, List.nil_append]
  · simp only [if_true]

/-- The header of a report, but for the line end behind it. -/
def headline (expressions : List Text) (colour : Colour) : Text :=
  "--- ".toList ++ List.intercalate [' '] expressions ++ " --- ".toList ++ colour.text

theorem byteText_freeOf (byte : UInt8) : (Colour.byteText byte).FreeOf (· == '\n') := by
  have hall : ∀ n < 256, (Colour.byteText (UInt8.ofNat n)).FreeOf (· == '\n') := by
    decide +kernel
  have := hall byte.toNat byte.toNat_lt
  rwa [UInt8.ofNat_toNat] at this

/-- **The header is one line if no expression has a line end in it.**  An expression that has one
    brings it into the header, for the expressions stand there as they were given. -/
theorem headline_freeOf {expressions : List Text} (colour : Colour)
    (h : ∀ expression ∈ expressions, expression.FreeOf (· == '\n')) :
    (headline expressions colour).FreeOf (· == '\n') := by
  have hcolour : colour.text.FreeOf (· == '\n') := by
    refine freeOf_append.mpr ⟨freeOf_append.mpr ⟨freeOf_append.mpr ⟨by decide, ?_⟩, ?_⟩, ?_⟩
    · exact byteText_freeOf colour.red
    · exact byteText_freeOf colour.green
    · exact byteText_freeOf colour.blue
  refine freeOf_append.mpr
    ⟨freeOf_append.mpr ⟨freeOf_append.mpr ⟨by decide, ?_⟩, by decide⟩, hcolour⟩
  exact freeOf_intercalate (by decide) h

/-- The report on expressions that all roll. -/
theorem report_of_allRoll (limit : Nat) {expressions : List Text} (h : AllRoll source expressions) :
    ∃ colour, report expressions limit source =
      (.ok (headline expressions colour ++ ['\n'] ++ (blocks limit source expressions).flatten),
        sourceAfter source expressions) := by
  obtain ⟨rolls, hrolls, hblocks⟩ := rollEach_of_allRoll h
  refine ⟨colourOf rolls, ?_⟩
  unfold report
  rw [hrolls, ← hblocks limit, ← List.flatMap_def]
  rfl

/-- The report on expressions of which one fails. -/
theorem report_of_fails (limit : Nat) {before : List Text} (h : AllRoll source before)
    {failure : Failure}
    (hfails : (rollOne expression (sourceAfter source before)).1 = .error failure)
    (rest : List Text) :
    report (before ++ expression :: rest) limit source
      = (.error failure, sourceAfter source (before ++ [expression])) := by
  unfold report
  rw [rollEach_of_fails h hfails]
  rfl

/-- **A report is its blocks.**  If all expressions roll, each from the source that the dice before
    it have left, the report is a header, which is one line unless an expression has a line end in
    it, and a block for each; and the block shows what the expression alone gives from that source.
    So the blocks of two lists are those of the one and then those of the other.  If not all roll,
    there is a first that does not, and the report is its fault under its name, with no more words
    taken than it took. -/
theorem report_compositional (limit : Nat) :
    -- a header and the blocks, and the header is one line if no expression has a line end
    (∀ source expressions, AllRoll source expressions → ∃ colour,
      report expressions limit source =
        (.ok (headline expressions colour ++ ['\n'] ++ (blocks limit source expressions).flatten),
          sourceAfter source expressions)) ∧
    (∀ expressions colour, (∀ expression ∈ expressions, expression.FreeOf (· == '\n')) →
      (headline expressions colour).FreeOf (· == '\n')) ∧
    -- which block stands where, what it shows, and the blocks of two lists
    (∀ source expressions k, (blocks limit source expressions)[k]?
      = expressions[k]?.map (block limit (sourceAfter source (expressions.take k)))) ∧
    (∀ source expression, (rollFields expression source).1.isOk = true →
      Shows limit source expression (block limit source expression)) ∧
    (∀ source first second,
      (AllRoll source (first ++ second) ↔
        AllRoll source first ∧ AllRoll (sourceAfter source first) second) ∧
      blocks limit source (first ++ second)
        = blocks limit source first ++ blocks limit (sourceAfter source first) second) ∧
    -- the first expression that fails, and what is left of the report and of the source
    (∀ source expressions, AllRoll source expressions ∨ ∃ before expression rest,
      expressions = before ++ expression :: rest ∧ AllRoll source before ∧
        ((∃ fault, Roll.read expression = .error fault) ∨
          ∃ roll fault, Roll.read expression = .ok roll ∧
            (roll.evaluate .chance (sourceAfter source before)).1 = .error fault)) ∧
    (∀ source before expression rest fault, AllRoll source before →
      Roll.read expression = .error fault →
      report (before ++ expression :: rest) limit source
        = (.error ⟨.reading, expression, fault⟩, sourceAfter source before)) ∧
    (∀ source before expression rest roll fault, AllRoll source before →
      Roll.read expression = .ok roll →
      (roll.evaluate .chance (sourceAfter source before)).1 = .error fault →
      report (before ++ expression :: rest) limit source
        = (.error ⟨.rolling, expression, fault⟩,
          (roll.dice.fall .chance (sourceAfter source before)).2)) ∧
    ∀ expression fault,
      (Failure.mk .reading expression fault).chain
        = ["could not parse `".toList ++ expression ++ "`".toList, fault.message] ∧
      (Failure.mk .rolling expression fault).chain
        = ["could not roll `".toList ++ expression ++ "`".toList, fault.message] := by
  refine ⟨fun _ _ h => report_of_allRoll limit h, fun _ colour h => headline_freeOf colour h,
    blocks_getElem? limit, fun _ _ h => block_shows limit h,
    fun source first second => ⟨allRoll_append, blocks_append limit source first second⟩,
    allRoll_or_fails, ?_, ?_, fun _ _ => ⟨rfl, rfl⟩⟩
  · intro source before expression rest fault h hread
    have hfails : (rollOne expression (sourceAfter source before)).1
        = .error ⟨.reading, expression, fault⟩ := by rw [rollOne_of_unread hread]
    rw [report_of_fails limit h hfails, sourceAfter_append, sourceAfter_singleton,
      afterDice_of_unread hread]
  · intro source before expression rest roll fault h hread hrun
    rw [report_of_fails limit h (rollOne_of_fails hread hrun), sourceAfter_append,
      sourceAfter_singleton, afterDice_of_read hread]

/-- Two expressions of which the second is too long for the limit, and a report that ends at the
    second of three because it divides by zero, although the third cannot even be read. -/
theorem report_compositional_fallsBack :
    let first : Text := "2d3+1l".toList
    let long : Text := "5d1".toList
    let failing : Text := "d6/0".toList
    let source : WordSource := .ofSeed [0, 9223372036854775808, 0, 0, 0, 0, 0, 7] 0
    let shown : List Text :=
      ["You rolled a 2d3+1l and got...\n2, 3\n\n".toList ++
          "You rolled a 2d3+1l and without modifiers got...\n1, 2\n\n".toList,
        "5d1 - Your result was too long, so the format changed to sum only.\n".toList ++
          "You rolled a 5d1 and got...\n5\n\n".toList]
    AllRoll source [first, long] ∧ blocks 10 source [first, long] = shown ∧
    (∃ colour, report [first, long] 10 source =
      (.ok (headline [first, long] colour ++ ['\n'] ++ shown.flatten), ⟨[7], 0, 7⟩)) ∧
    report [first, failing, "0d6".toList] 10 source
      = (.error ⟨.rolling, failing, .divisionByZero⟩, ⟨[0, 0, 0, 0, 7], 0, 3⟩) := by
  intro first long failing source shown
  have hall : AllRoll source [first, long] := by decide +kernel
  have hblocks : blocks 10 source [first, long] = shown := by decide +kernel
  have hrest : sourceAfter source [first, long] = ⟨[7], 0, 7⟩ := by decide +kernel
  have hbefore : AllRoll source [first] := by decide +kernel
  have hread : Roll.read failing
      = .ok ⟨failing, ⟨1, 1, 6⟩, [⟨.divide, 0⟩], [], .plain⟩ := by decide +kernel
  obtain ⟨hreport, -, -, -, -, -, -, hfails, -⟩ := report_compositional 10
  obtain ⟨colour, hshown⟩ := hreport source _ hall
  rw [hblocks, hrest] at hshown
  refine ⟨hall, hblocks, ⟨colour, hshown⟩, ?_⟩
  have hfailed := hfails source [first] failing ["0d6".toList] _ .divisionByZero hbefore hread
    (by decide +kernel)
  rw [List.singleton_append] at hfailed
  rw [hfailed]
  decide +kernel

end DiceNotation.CommandLine
