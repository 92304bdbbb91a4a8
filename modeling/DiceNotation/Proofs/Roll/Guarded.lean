/-
  Reading with tokenizers.

  `Roll.read` cuts a text at six places, and each of these cuts has a result whatever the text is.
  `Roll.readOr` is the same reader with tokenizers in their place.  A tokenizer can fail, so the reader
  needs a fault for each place where one is used, which quotes all of the text that has been refused.

  No tokenizer here ever fails (`cut_directives` and the five below it).  So the two readers are one,
  whatever faults are kept ready (`readOr_eq_read`), and none of these is ever seen.  The sets of
  characters that the tokenizers go by are written out here, and it matters that they are the characters
  that the marks know: a character that is in a set and marks nothing would stop a tokenizer.
-/
import DiceNotation.Roll
import DiceNotation.Proofs.Text.Tokenizer

namespace DiceNotation

open Text Tokenizer

/-! ## Sets of characters -/

/-- The characters of operators. -/
def operatorSigils : List Char := ['+', '-', '*', '/']

/-- The characters that end the dice clause. -/
def coreSigils : List Char := ['+', '-', '*', '/', 'i']

/-- The characters between groups. -/
def groupDelimiters : List Char := [';', 'i']

/-- The characters of directives. -/
def directiveSigils : List Char := ['l', 's', '>', '<']

theorem contains_operatorSigils (c : Char) :
    operatorSigils.contains c = isMark Operator.ofSigil? c := by
  rw [Bool.eq_iff_iff, List.contains_iff_mem]
  unfold isMark Operator.ofSigil? operatorSigils
  split <;> simp_all

theorem contains_directiveSigils (c : Char) :
    directiveSigils.contains c = isMark Directive.ofSigil? c := by
  rw [Bool.eq_iff_iff, List.contains_iff_mem]
  unfold isMark Directive.ofSigil? directiveSigils
  split <;> simp_all

theorem contains_coreSigils : (coreSigils.contains ·) = endsDice := by
  funext c
  have hsplit : coreSigils.contains c = (operatorSigils.contains c || c == targetSigil) := by
    rw [Bool.eq_iff_iff]
    simp [coreSigils, operatorSigils, targetSigil, or_assoc]
  rw [hsplit, contains_operatorSigils]
  rfl

theorem contains_groupDelimiters : (groupDelimiters.contains ·) = isGroupDelimiter := by
  funext c
  rw [Bool.eq_iff_iff]
  simp [groupDelimiters, isGroupDelimiter, targetSigil]

/-! ## The six tokenizers -/

/-- An expression without its directives, and the directives with their arguments. -/
def directiveTokens : Tokenizer (Text × List (Directive × Text)) :=
  marked (directiveSigils.contains ·) Directive.ofSigil?

/-- The dice clause, the steps for every die and the groups. -/
def coreTokens : Tokenizer (Text × Text × Text) :=
  (till (coreSigils.contains ·)).andThen ((till (· == targetSigil)).andThen rest)

/-- The operand in front of the first operator, and the operators with their operands. -/
def operatorTokens : Tokenizer (Text × List (Operator × Text)) :=
  marked (operatorSigils.contains ·) Operator.ofSigil?

/-- The pieces that are groups, or blank. -/
def groupTokens : Tokenizer (List Text) :=
  (separated (till (groupDelimiters.contains ·)) (one (groupDelimiters.contains ·))).orElse (nothing [])

/-- The targets and the steps of a group. -/
def partTokens : Tokenizer (Text × Text) :=
  (((till (· == ':')).andThen ((one (· == ':')).andThen rest)).map fun x => (x.1, x.2.2)).orElse
    (((till (operatorSigils.contains ·)).map fun s => Group.dropClosingComma s.trimEnd).andThen rest)

/-- The entries of a target list. -/
def targetTokens : Tokenizer (List Text) :=
  separated (till (· == ',')) (one (· == ','))

theorem cut_directives (s : Text) : directiveTokens.whole s = some (s.cut Directive.ofSigil?) :=
  whole_marked contains_directiveSigils s

theorem cut_core (s : Text) : coreTokens.whole s = some (Roll.parts s) := by
  unfold coreTokens
  rw [contains_coreSigils]
  exact whole_eq (andThen_eq rfl (andThen_eq rfl rfl))

theorem cut_operators (s : Text) : operatorTokens.whole s = some (s.cut Operator.ofSigil?) :=
  whole_marked contains_operatorSigils s

theorem cut_groups (s : Text) : groupTokens.whole s = some (s.split isGroupDelimiter) := by
  unfold groupTokens
  rw [contains_groupDelimiters]
  exact whole_eq (orElse_eq _ (separated_till isGroupDelimiter s))

theorem cut_targets (s : Text) : targetTokens.whole s = some (s.split (· == ',')) :=
  whole_separated _ s

/-- The second way of taking a group apart, where there is no `:` for the first one. -/
theorem cut_group (s : Text) : partTokens.whole s = some (Group.parts s) := by
  have hset : (operatorSigils.contains ·) = Operator.isSigil := funext contains_operatorSigils
  unfold partTokens Group.parts
  rw [hset]
  apply whole_eq
  have hopen := opensWith_onward (· == ':') s
  generalize hfront : s.upTo (· == ':') = front
  generalize hrest : s.onward (· == ':') = rest at hopen
  have htill : till (· == ':') s = some (front, rest) := by rw [till, hfront, hrest]
  cases rest with
  | nil =>
    have hnone : (one (· == ':')).andThen Tokenizer.rest [] = none := andThen_eq_none _ rfl
    refine (orElse_eq_of_none _ ?_).trans (andThen_eq (map_eq _ rfl) rfl)
    unfold Tokenizer.map verify andThen
    rw [htill]
    rfl
  | cons c steps =>
    have hcolon : one (· == ':') (c :: steps) = some (c, steps) := if_pos (opensWith_cons.mp hopen)
    exact orElse_eq _ (map_eq _ (andThen_eq htill (andThen_eq hcolon rfl)))

/-! ## The guarded reader -/

/-- A place where a text is taken apart. -/
inductive Place where
  | directives
  | core
  | operators
  | groups
  | group
  | targets

section Guarded

variable (refused : Place → Text → Fault)

/-- What a tokenizer takes, or the fault that is kept ready for the text that it refuses. -/
def tokensOr {α : Type} (place : Place) (t : Tokenizer α) (s : Text) : Except Fault α :=
  match t.whole s with
  | some a => .ok a
  | none => .error (refused place s)

/-- `Format.read` with tokenizers. -/
def Format.readOr (s : Text) : Except Fault (Text × Format) := do
  let (core, directives) ← tokensOr refused .directives directiveTokens s
  let format ← directives.foldlM
    (fun (format : Format) (directive, argument) =>
      format.withDirective directive (Text.trim argument))
    plain
  return (core, format)

/-- `Step.readAll` with tokenizers. -/
def Step.readAllOr (s : Text) : Except Fault (List Step) := do
  let (leading, pieces) ← tokensOr refused .operators operatorTokens s
  let steps ← ((Operator.add, leading) :: pieces).mapM fun (operator, piece) =>
    scan .ignored operator piece
  return steps.flatten

namespace Group

/-- `Group.readTargets` with tokenizers. -/
def readTargetsOr (s : Text) : Except Fault (List Nat) := do
  let entries ← tokensOr refused .targets targetTokens s
  let targets ← entries.mapM fun entry =>
    match target? entry with
    | some t => .ok t
    | none => .error (.badTarget entry.trim)
  return targetSet targets

/-- `Group.read` with tokenizers. -/
def readOr (piece : Text) : Except Fault Group := do
  let (targets, steps) ← tokensOr refused .group partTokens piece
  let targets ← readTargetsOr refused targets
  let steps ← Step.scan .refused .add steps
  return ⟨targets, steps⟩

/-- `Group.readAll` with tokenizers. -/
def readAllOr (s : Text) : Except Fault (List Group) := do
  let pieces ← tokensOr refused .groups groupTokens s
  (pieces.filter fun piece => !piece.isAllBlank).mapM (readOr refused)

end Group

/-- `Roll.read` with tokenizers. -/
def Roll.readOr (s : Text) : Except Fault Roll := do
  let (core, format) ← Format.readOr refused s
  let (dice, steps, groups) ← tokensOr refused .core coreTokens core
  return {
    source := s
    dice := ← Dice.read dice
    steps := ← Step.readAllOr refused steps
    groups := ← Group.readAllOr refused groups
    format }

/-! ## Nothing is refused -/

theorem tokensOr_eq {α : Type} {t : Tokenizer α} {s : Text} {a : α} (place : Place)
    (h : t.whole s = some a) : tokensOr refused place t s = .ok a := by
  rw [tokensOr, h]

theorem Format.readOr_eq (s : Text) : Format.readOr refused s = Format.read s := by
  rw [Format.readOr, tokensOr_eq refused _ (cut_directives s)]
  rfl

theorem Step.readAllOr_eq (s : Text) : Step.readAllOr refused s = Step.readAll s := by
  rw [Step.readAllOr, tokensOr_eq refused _ (cut_operators s)]
  rfl

theorem Group.readTargetsOr_eq (s : Text) : readTargetsOr refused s = readTargets s := by
  rw [readTargetsOr, tokensOr_eq refused _ (cut_targets s)]
  rfl

theorem Group.readOr_eq (piece : Text) : readOr refused piece = read piece := by
  rw [readOr, tokensOr_eq refused _ (cut_group piece)]
  show (readTargetsOr refused _ >>= _) = _
  rw [readTargetsOr_eq]
  rfl

theorem Group.readAllOr_eq (s : Text) : readAllOr refused s = readAll s := by
  rw [readAllOr, tokensOr_eq refused _ (cut_groups s), funext (readOr_eq refused)]
  rfl

/-- **Reading with tokenizers is reading**, whatever is kept ready for a text that they refuse. -/
theorem Roll.readOr_eq_read (s : Text) : Roll.readOr refused s = Roll.read s := by
  unfold Roll.readOr Roll.read
  rw [Format.readOr_eq]
  congr 1
  funext ⟨core, format⟩
  simp only [tokensOr_eq refused _ (cut_core core), Step.readAllOr_eq, Group.readAllOr_eq]
  rfl

end Guarded

end DiceNotation
