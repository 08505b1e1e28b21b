import PatternSampler.CommandLine.Response

/-!
# The program

The outer layer of the command line: it reads the input that the arguments name, draws a seed for
the runs that are given none, and writes out the response.
-/

namespace PatternSampler.CommandLine

/-- The reason why something cannot be read. -/
def reason : IO.Error → String
  | .noFileOrDirectory .. => "No such file or directory (os error 2)"
  | .permissionDenied .. => "Permission denied (os error 13)"
  | .inappropriateType _ 21 _ => "Is a directory (os error 21)"
  | .inappropriateType .. => "Not a directory (os error 20)"
  | .invalidArgument .. => "File name too long (os error 36)"
  | .userError _ => "stream did not contain valid UTF-8"
  | e => toString e

/-- The text that is left on a stream. -/
partial def readRest (stream : IO.FS.Stream) (before : String) : IO String := do
  let line ← stream.getLine
  if line.isEmpty then pure before else readRest stream (before ++ line)

/-- What an action gives, or the reason why it fails. -/
def attempt (action : IO String) : IO (Except String String) := do
  match ← action.toBaseIO with
  | .ok text => pure (.ok text)
  | .error e => pure (.error (reason e))

/-- Reads what a run with some arguments is to read. -/
def gather (args : List String) : IO Inputs := do
  match toRead args with
  | some (some name) =>
    let text ← attempt (IO.FS.readFile name)
    pure { file := fun _ => text, stdin := .ok "" }
  | some none =>
    let text ← attempt (do readRest (← IO.getStdin) "")
    pure { file := fun _ => .ok "", stdin := text }
  | none => pure { file := fun _ => .ok "", stdin := .ok "" }

/-- A seed that differs from run to run. -/
def freshSeed : IO UInt64 := do
  let bytes ← IO.getRandomBytes 8
  pure (bytes.foldl (fun seed byte => seed * 256 + byte.toUInt64) 0)

end PatternSampler.CommandLine

open PatternSampler.CommandLine in
/-- Runs the program. -/
def main (args : List String) : IO UInt32 := do
  let response := respond args (← gather args) (← freshSeed)
  IO.print response.stdout
  IO.eprint response.stderr
  pure (UInt32.ofNat response.status)
