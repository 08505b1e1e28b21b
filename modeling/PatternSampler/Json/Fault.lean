/-!
# What is wrong with a JSON text

A text that is no JSON document either ends too early or has a wrong character somewhere. A `Fault`
is the first such thing that a reader meets, from left to right.
-/

namespace PatternSampler.Json

/-- What a reader was inside of when the text ended. -/
inductive Construct where
  | value
  | string
  | list
  | object
  deriving DecidableEq, Repr

/-- The first thing that keeps a text from being a JSON document. -/
inductive Fault where
  /-- The text ends inside a construct. -/
  | cutShort (inside : Construct)
  /-- No value starts here. -/
  | expectedValue
  /-- A word starts like `null`, `true` or `false` and goes on otherwise. -/
  | expectedIdent
  | expectedColon
  | expectedCommaOrBrace
  | expectedCommaOrBracket
  | trailingComma
  | keyNotString
  | badNumber
  /-- A number is too large for a float. -/
  | numberOutOfRange
  | badEscape
  /-- One half of a surrogate pair stands where the other has to be. -/
  | loneSurrogate
  /-- The first half of a surrogate pair is not followed by an escape. -/
  | unfinishedSurrogate
  /-- A control character stands in a string unescaped. -/
  | rawControl
  /-- Too many brackets are open at once. -/
  | tooNested
  /-- Something other than blanks follows the document. -/
  | trailingCharacters
  deriving DecidableEq, Repr

/-- How a message names a construct. -/
def Construct.name : Construct → String
  | .value => "a value"
  | .string => "a string"
  | .list => "a list"
  | .object => "an object"

/-- The sentence that reports a fault. -/
def Fault.message : Fault → String
  | .cutShort inside => "EOF while parsing " ++ inside.name
  | .expectedValue => "expected value"
  | .expectedIdent => "expected ident"
  | .expectedColon => "expected `:`"
  | .expectedCommaOrBrace => "expected `,` or `\x7d`"
  | .expectedCommaOrBracket => "expected `,` or `]`"
  | .trailingComma => "trailing comma"
  | .keyNotString => "key must be a string"
  | .badNumber => "invalid number"
  | .numberOutOfRange => "number out of range"
  | .badEscape => "invalid escape"
  | .loneSurrogate => "lone leading surrogate in hex escape"
  | .unfinishedSurrogate => "unexpected end of hex escape"
  | .rawControl => "control character (\\u0000-\\u001F) found while parsing a string"
  | .tooNested => "recursion limit exceeded"
  | .trailingCharacters => "trailing characters"

/-- A reader takes something off the front of a text: it gives that and the text after it. -/
abbrev Reader (α : Type) := List Char → Except Fault (α × List Char)

end PatternSampler.Json
