import PatternSampler.Choice.Keystream
import PatternSampler.CommandLine.Options
import PatternSampler.Pattern.Document
import PatternSampler.Sample.Session

/-!
# What a run of the program does

A run ends with an exit status and with what it has written to the two output streams. Samples go to
standard output, one to a line; the samples before an error stay there. An error is reported in one
sentence on standard error.
-/

namespace PatternSampler.CommandLine

/-- What a run leaves behind. -/
structure Response where
  status : Nat
  stdout : String
  stderr : String
  deriving DecidableEq, Repr

/-- Why a run fails. -/
inductive Failure where
  | usage (error : UsageError)
  /-- A file, or standard input, cannot be read. -/
  | unreadable (name reason : String)
  | notAPattern (error : DocumentError)
  | noSample (error : SampleError)

/-- The sentence that reports a failure. -/
def Failure.message : Failure → String
  | .usage error => error.message
  | .unreadable name reason => s!"failed to read {name}: {reason}"
  | .notAPattern error => "input is not a valid pattern tree: " ++ error.message
  | .noSample error => "could not generate a sample: " ++ error.message

namespace Response

/-- A run that has written some text and succeeded. -/
def success (stdout : String) : Response := ⟨0, stdout, ""⟩

/-- A run that has written some text and failed. -/
def failure (stdout : String) (f : Failure) : Response :=
  ⟨1, stdout, s!"error: " ++ f.message ++ "\n"⟩

end Response

/-- Some lines of text. -/
def lines (texts : List String) : String :=
  String.join (texts.map (· ++ "\n"))

namespace Options

/-- The name under which a report speaks of the input. -/
def inputName (o : Options) : String := o.file.getD "stdin"

/-- The limits that samples keep to. -/
def config (o : Options) : Config :=
  match o.maxDepth with
  | some maxDepth => { maxDepth }
  | none => { }

/-- Makes the samples of a pattern tree. `entropy` is the seed if none is given. -/
def samples (o : Options) (entropy : UInt64) (node : Node) : Response :=
  let start := Keystream.start (o.seed.getD entropy)
  match stream Source.seeded o.config node o.count start with
  | (texts, none) => .success (lines texts)
  | (texts, some e) => .failure (lines texts) (.noSample e)

/-- Reads a pattern tree and makes its samples. The input is given as its text, or as the reason why
it cannot be read. -/
def respond (o : Options) (entropy : UInt64) (input : Except String String) : Response :=
  match input with
  | .error reason => .failure "" (.unreadable o.inputName reason)
  | .ok text =>
    match Node.ofText text with
    | .error e => .failure "" (.notAPattern e)
    | .ok node => o.samples entropy node

end Options

/-- What a run reads from: files, by name, and standard input. What cannot be read is given by the
reason. -/
structure Inputs where
  file : String → Except String String
  stdin : Except String String

/-- The input that the options name. -/
def Inputs.named (inputs : Inputs) (o : Options) : Except String String :=
  match o.file with
  | some name => inputs.file name
  | none => inputs.stdin

/-- What a run with some arguments reads its tree from, if anything: a file by its name, or standard
input, which has none. -/
def toRead (args : List String) : Option (Option String) :=
  match Command.parse args with
  | .ok (.sample o) => some o.file
  | .ok .help | .error _ => none

/-- What a run with some arguments does. -/
def respond (args : List String) (inputs : Inputs) (entropy : UInt64) : Response :=
  match Command.parse args with
  | .error e => .failure "" (.usage e)
  | .ok .help => .success (usage ++ "\n")
  | .ok (.sample o) => o.respond entropy (inputs.named o)

end PatternSampler.CommandLine
