/-
  The characters that cut an expression.

  An expression has no brackets and no keywords: single characters, the sigils, say where one part
  ends and the next begins.

  1. An operator, one of `+ - * /`, opens an operand.
  2. An `i` opens the targeted groups, and an `i` or a `;` closes each of them.
  3. A directive, one of `l s > <`, opens the format, and closes everything before it.

  The three kinds are apart from each other, and `d` and `:` belong to none of them; these have a
  meaning only inside the part that uses them.
-/

namespace DiceNotation

/-! ## Operators -/

/-- What an operand does to a value. -/
inductive Operator where
  | add
  | subtract
  | multiply
  | divide
  deriving DecidableEq

namespace Operator

/-- The character that writes an operator. -/
def sigil : Operator → Char
  | add => '+'
  | subtract => '-'
  | multiply => '*'
  | divide => '/'

/-- The operator that a character writes. -/
def ofSigil? : Char → Option Operator
  | '+' => some add
  | '-' => some subtract
  | '*' => some multiply
  | '/' => some divide
  | _ => none

theorem ofSigil?_eq_some_iff {c : Char} {o : Operator} : ofSigil? c = some o ↔ c = o.sigil := by
  constructor
  · intro h
    unfold ofSigil? at h
    split at h <;> simp_all [sigil] <;> subst h <;> rfl
  · rintro rfl
    cases o <;> rfl

/-- Whether a character writes an operator. -/
def isSigil (c : Char) : Bool :=
  (ofSigil? c).isSome

end Operator

/-! ## Targets -/

/-- The character that opens the targeted groups. -/
def targetSigil : Char := 'i'

/-- The characters that close a targeted group. -/
def isGroupDelimiter (c : Char) : Bool :=
  c == ';' || c == targetSigil

/-- The characters that end the dice clause: an operator, or the start of the targeted groups. -/
def endsDice (c : Char) : Bool :=
  Operator.isSigil c || c == targetSigil

/-! ## Directives -/

/-- What a format directive asks for. -/
inductive Directive where
  /-- The values, without their sum. -/
  | list
  /-- The sum alone. -/
  | sum
  /-- Values from a limit up stand out. -/
  | greater
  /-- Values from a limit down stand out. -/
  | less
  deriving DecidableEq

namespace Directive

/-- The character that writes a directive. -/
def sigil : Directive → Char
  | list => 'l'
  | sum => 's'
  | greater => '>'
  | less => '<'

/-- The directive that a character writes. -/
def ofSigil? : Char → Option Directive
  | 'l' => some list
  | 's' => some sum
  | '>' => some greater
  | '<' => some less
  | _ => none

theorem ofSigil?_eq_some_iff {c : Char} {d : Directive} : ofSigil? c = some d ↔ c = d.sigil := by
  constructor
  · intro h
    unfold ofSigil? at h
    split at h <;> simp_all [sigil] <;> subst h <;> rfl
  · rintro rfl
    cases d <;> rfl

/-- Whether a character writes a directive. -/
def isSigil (c : Char) : Bool :=
  (ofSigil? c).isSome

end Directive

end DiceNotation
