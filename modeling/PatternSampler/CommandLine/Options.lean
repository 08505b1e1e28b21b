import PatternSampler.Numeral

/-!
# Command-line options

The arguments are read from left to right. A flag that takes a value takes the argument after it,
whatever that looks like; of several values for one option the last counts. The first argument at
fault, or a request for help before it, decides.
-/

namespace PatternSampler.CommandLine

/-- What a run is asked to do. -/
structure Options where
  /-- How many samples to make. -/
  count : Nat := 1
  /-- The seed of the choices. Without one they differ from run to run. -/
  seed : Option UInt64 := none
  /-- The limit on nesting, if not the usual one. -/
  maxDepth : Option Nat := none
  /-- The file with the pattern tree. Without one it comes from standard input. -/
  file : Option String := none
  deriving DecidableEq, Repr

/-- What is wrong with the arguments. -/
inductive UsageError where
  | missingValue (flag : String)
  | badValue (flag value : String) (fault : NumeralFault)
  | unknownOption (arg : String)
  deriving DecidableEq, Repr

/-- What the arguments ask for. -/
inductive Command where
  | help
  | sample (options : Options)
  deriving DecidableEq, Repr

/-- How the program is called. -/
def usage : String :=
  "Usage: regex-sample [-n COUNT] [--seed N] [--max-depth N] [FILE|-]"

/-- The sentence that reports a usage error. -/
def UsageError.message : UsageError → String
  | .missingValue flag => s!"`{flag}` needs a value"
  | .badValue flag value fault => s!"invalid value `{value}` for `{flag}`: " ++ fault.message
  | .unknownOption arg => s!"unknown option `{arg}`\n{usage}"

/-- The value of a flag, an unsigned number of sixty-four bits. -/
def flagValue (flag value : String) : Except UsageError Nat :=
  (Numeral.read 10 Numeral.max64 value).mapError (.badValue flag value)

/-- The options with the value of a flag entered. Every flag that takes a value is one of three. -/
def Options.set (o : Options) (flag : String) (n : Nat) : Options :=
  if flag = "-n" then { o with count := n }
  else if flag = "--seed" then { o with seed := some (UInt64.ofNat n) }
  else { o with maxDepth := some n }

/-- The flags that take a value. -/
def valueFlags : List String := ["-n", "--seed", "--max-depth"]

/-- What some arguments ask for, given the options set before them. -/
def Command.parseFrom (o : Options) : List String → Except UsageError Command
  | [] => .ok (.sample o)
  | arg :: args =>
    if arg ∈ valueFlags then
      match args with
      | [] => .error (.missingValue arg)
      | value :: args =>
        match flagValue arg value with
        | .ok n => parseFrom (o.set arg n) args
        | .error e => .error e
    else if arg = "-h" ∨ arg = "--help" then .ok .help
    else if arg = "-" then parseFrom { o with file := none } args
    else if arg.startsWith "-" then .error (.unknownOption arg)
    else parseFrom { o with file := some arg } args

/-- What the arguments ask for. -/
def Command.parse (args : List String) : Except UsageError Command :=
  parseFrom { } args

end PatternSampler.CommandLine
