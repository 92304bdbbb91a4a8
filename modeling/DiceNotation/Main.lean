/-
  The command: words in, a report out.

  Nothing is decided here.  The words and two environment variables become a request, the request
  becomes a report, and the report or the refusal is printed.  Without a seed the dice fall by a
  word that the system gives.
-/
import DiceNotation.CommandLine.Arguments
import DiceNotation.CommandLine.Report

namespace DiceNotation.CommandLine

/-- What is printed when the arguments are not taken, or when help is asked for. -/
def Refusal.explanation : Refusal → String
  | .unknownOption => "error: there is no such option\n"
  | .missingValue => "error: an option needs a value\n"
  | .unexpectedValue => "error: an option takes no value\n"
  | .badValue => "error: a value is not a number of its kind\n"
  | .repeatedSetting => "error: an option is given twice\n"
  | .helpRequested =>
    "Roll dice from the command line.\n\n" ++
    "Usage: [--seed SEED] [--field-limit LIMIT] [EXPRESSION ...]\n\n" ++
    "xdy+z rolls x dice from 1 to y, or in a range like 50:100, and applies the modifiers.\n" ++
    "3d100i1,3:+20;2,-5 adds 20 to the first and third die and takes 5 from the second.\n" ++
    "A trailing l, l5, s, >50 or <50 changes how the result is shown.\n"
  | .versionRequested => "0.1.0\n"

/-- Whether a refusal is an answer and not an error. -/
def Refusal.isAnswer : Refusal → Bool
  | .helpRequested | .versionRequested => true
  | _ => false

/-- A failure as it is printed. -/
def Failure.explanation (failure : Failure) : String :=
  "Error: " ++ String.ofList failure.context ++ "\n\nCaused by:\n    " ++
    String.ofList failure.fault.message ++ "\n"

/-- Eight bytes as a word. -/
def wordOfBytes (bytes : ByteArray) : UInt64 :=
  bytes.toList.foldl (fun word byte => word * 256 + byte.toUInt64) 0

/-- Reads the words, reports, and gives the exit status. -/
def run (words : List String) : IO UInt32 := do
  let seedVariable ← IO.getEnv Setting.seed.environmentName
  let limitVariable ← IO.getEnv Setting.fieldLimit.environmentName
  let environment : Setting → Option Text
    | .seed => seedVariable.map String.toList
    | .fieldLimit => limitVariable.map String.toList
  match Request.read (words.map String.toList) environment with
  | .error refusal =>
    if refusal.isAnswer then
      IO.print refusal.explanation
      return 0
    else
      IO.eprint refusal.explanation
      return 2
  | .ok request =>
    let seed ← match request.seed with
      | some n => pure (UInt64.ofNat n)
      | none => wordOfBytes <$> IO.getRandomBytes 8
    match (report request.expressions request.fieldLimit (.ofSeed [] seed)).1 with
    | .error failure =>
      IO.eprint failure.explanation
      return 1
    | .ok text =>
      IO.print (String.ofList text)
      return 0

end DiceNotation.CommandLine

/-- The command. -/
def main (words : List String) : IO UInt32 :=
  DiceNotation.CommandLine.run words
