/-
  The arguments of the command.

      [--seed SEED] [--field-limit LIMIT] [EXPRESSION ...]

  Expressions stand anywhere; without any, one percentile die is rolled.  Each setting is given at
  most once, as `--seed 4` or `--seed=4`, and is taken from an environment variable if it is not
  given.  After `--` everything is an expression.

  What is wrong with the arguments is told for the FIRST thing that is, from left to right, but a
  value is only looked at when the word after it is.  So `Reading` holds the setting that is open,
  with its value once that came, and `Reading.settle` closes it:

  1. without a value it is refused, and so it is if it was given before;
  2. then its value must be a number of its kind, or is refused in turn.

  Every word but a plain one closes the open setting, with one exception: a word that looks like an
  option and is none is refused at once.  A plain word is the value of the open setting if it still
  needs one, and else an expression.  The environment is looked at last.
-/
import DiceNotation.Field
import DiceNotation.Numeral

namespace DiceNotation.CommandLine

open Text

/-! ## Settings -/

/-- What can be set. -/
inductive Setting where
  | seed
  | fieldLimit
  deriving DecidableEq

namespace Setting

/-- The name on the command line, behind two dashes. -/
def name : Setting → Text
  | seed => "seed".toList
  | fieldLimit => "field-limit".toList

/-- The environment variable. -/
def environmentName : Setting → String
  | seed => "ROLLPLAYER_SEED"
  | fieldLimit => "ROLLPLAYER_FIELD_LIMIT"

/-- The setting with a name. -/
def ofName? (s : Text) : Option Setting :=
  [seed, fieldLimit].find? fun setting => setting.name = s

end Setting

/-- Why the arguments are not taken.  Asking for help or for the version counts as a reason. -/
inductive Refusal where
  | unknownOption
  | missingValue
  | unexpectedValue
  | badValue
  | repeatedSetting
  | helpRequested
  | versionRequested
  deriving DecidableEq

/-- The value of a setting: a natural number of 64 bits, with leading zeros and a plus sign
    allowed. -/
def settingValue? (s : Text) : Option Nat :=
  (Numeral.unsigned? s).filter (· < 2 ^ 64)

/-! ## Words -/

/-- What a word on the command line is, before it is known what it means. -/
inductive Word where
  /-- Two dashes and nothing else. -/
  | terminator
  /-- Two dashes and a name, perhaps with a value behind `=`. -/
  | long (name : Text) (value : Option Text)
  /-- One dash and letters. -/
  | short (first : Char)
  | plain
  deriving DecidableEq

/-- The kind of a word. -/
def Word.of : Text → Word
  | '-' :: '-' :: [] => .terminator
  | '-' :: '-' :: s =>
    match Text.onward (· == '=') s with
    | _ :: value => .long (Text.upTo (· == '=') s) (some value)
    | [] => .long s none
  | '-' :: c :: _ => .short c
  | _ => .plain

/-! ## Reading -/

/-- How far the arguments have been read. -/
structure Reading where
  /-- The expressions so far. -/
  expressions : List Text
  seed : Option Nat
  fieldLimit : Option Nat
  /-- The setting that is open, and its value if it has one. -/
  pending : Option (Setting × Option Text)
  deriving DecidableEq

namespace Reading

/-- Nothing read yet. -/
def start : Reading :=
  ⟨[], none, none, none⟩

/-- The value that a setting has so far. -/
def get? (reading : Reading) : Setting → Option Nat
  | .seed => reading.seed
  | .fieldLimit => reading.fieldLimit

/-- Gives a setting a value. -/
def set (reading : Reading) (value : Nat) : Setting → Reading
  | .seed => { reading with seed := some value }
  | .fieldLimit => { reading with fieldLimit := some value }

/-- Closes the open setting, if there is one. -/
def settle (reading : Reading) : Except Refusal Reading :=
  match reading.pending with
  | none => .ok reading
  | some (_, none) => .error .missingValue
  | some (setting, some value) =>
    if (reading.get? setting).isSome then
      .error .repeatedSetting
    else
      match settingValue? value with
      | none => .error .badValue
      | some n => .ok ({ reading with pending := none }.set n setting)

/-- Closes the open setting and then refuses. -/
def settleAndRefuse (reading : Reading) (refusal : Refusal) : Except Refusal Reading :=
  match reading.settle with
  | .error earlier => .error earlier
  | .ok _ => .error refusal

/-- Closes the open setting and opens another; a value behind `=` closes it at once. -/
def openSetting (reading : Reading) (setting : Setting) (value : Option Text) :
    Except Refusal Reading := do
  let reading := { ← reading.settle with pending := some (setting, value) }
  if value.isSome then reading.settle else return reading

/-- Goes on with a word that starts with two dashes and has a name. -/
def long (reading : Reading) (name : Text) (value : Option Text) : Except Refusal Reading :=
  match Setting.ofName? name with
  | some setting => reading.openSetting setting value
  | none =>
    if name = "help".toList ∨ name = "version".toList then
      if value.isSome then .error .unexpectedValue
      else if name = "help".toList then reading.settleAndRefuse .helpRequested
      else reading.settleAndRefuse .versionRequested
    else
      .error .unknownOption

/-- Goes on with a word that starts with one dash. -/
def short (reading : Reading) (first : Char) : Except Refusal Reading :=
  if first = 'h' then reading.settleAndRefuse .helpRequested
  else if first = 'V' then reading.settleAndRefuse .versionRequested
  else .error .unknownOption

/-- Goes on with a word that is no option. -/
def plain (reading : Reading) (word : Text) : Except Refusal Reading :=
  match reading.pending with
  | some (setting, none) => .ok { reading with pending := some (setting, some word) }
  | _ => do
    let reading ← reading.settle
    return { reading with expressions := reading.expressions ++ [word] }

/-- Reads the words, and closes what is open at the end. -/
def words (reading : Reading) : List Text → Except Refusal Reading
  | [] => reading.settle
  | word :: rest =>
    match Word.of word with
    | .terminator => do
      let reading ← reading.settle
      return { reading with expressions := reading.expressions ++ rest }
    | .long name value => do words (← reading.long name value) rest
    | .short first => do words (← reading.short first) rest
    | .plain => do words (← reading.plain word) rest

/-- The value of a setting, from the environment if it was not given. -/
def orVariable (reading : Reading) (environment : Setting → Option Text) (setting : Setting) :
    Except Refusal (Option Nat) :=
  match reading.get? setting with
  | some n => .ok (some n)
  | none =>
    match environment setting with
    | none => .ok none
    | some value =>
      match settingValue? value with
      | some n => .ok (some n)
      | none => .error .badValue

end Reading

/-! ## Requests -/

/-- What the command is asked to do. -/
structure Request where
  expressions : List Text
  seed : Option Nat
  fieldLimit : Nat
  deriving DecidableEq

/-- Reads the words behind the command's name. -/
def Request.read (words : List Text) (environment : Setting → Option Text) :
    Except Refusal Request := do
  let reading ← Reading.start.words words
  let seed ← reading.orVariable environment .seed
  let fieldLimit ← reading.orVariable environment .fieldLimit
  return {
    expressions :=
      if reading.expressions = [] then [Dice.percentile.text] else reading.expressions
    seed
    fieldLimit := fieldLimit.getD defaultFieldLimit }

end DiceNotation.CommandLine
